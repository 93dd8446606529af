import FormulaGraph.Enumeration.Datum
import FormulaGraph.Term.Text

/-!
Why an operation fails, and how the failure is worded.

An error is one of a few shapes; the three broad ones carry the cause. Callers that only branch on
the kind of failure use `Error.kind`.
-/

namespace FormulaGraph

/-- A request that is malformed or not allowed. -/
inductive Misuse where
  | indexCount (prim : PrimOp) (given : Nat)
  | malformedOp (op : Op)
  | nullApplied
  | missingIndex (op : Op) (position : Nat)
  | extractOutside (op : Op) (sort : LogicSort)
  | tooWide (op : Op)
  | emptyRepetition
  | unknownBase (base : Nat)
  | notANumeral (repr : String) (base : Nat) (sort : LogicSort)
  | zeroDenominator (literal : Literal)
  | outOfRange (literal : Literal)
  | wrongSort (literal : Literal) (sort : LogicSort)
  | undeclaredSort (sort : LogicSort)
  | abstractSort (sort : LogicSort)
  | foreignTerm (term : Term)
  | unknownSymbol (name : String)
  | notABooleanLiteral (term : Term)
  | bareKind (kind : SortKind)
  | zeroWidth
  | emptyDomain
  | unfinalized (datatype : String)
  | unknownHandle (index : Nat)
  | noModel
  | tooFewScopes (levels : UInt64)
  | notAMember (constr datatype : String)
  | unknownConstructor (name : String)
  | noRacers
  | other (text : String)

namespace Misuse

def text : Misuse → String
  | indexCount p n => s!"{p} takes {p.indexCount} index(es), but {n} were given"
  | malformedOp op => s!"{op} has the wrong number of indices"
  | nullApplied => "cannot apply the null operator"
  | missingIndex op i => s!"{op} is missing index {i}"
  | extractOutside op sort => s!"{op} does not fit in {sort}"
  | tooWide op => s!"{op} overflows the bit-vector width"
  | emptyRepetition => "repeat count must be positive"
  | unknownBase base => s!"base {base} is not in 2..=36"
  | notANumeral repr base sort => s!"'{repr}' is not a base-{base} literal of {sort}"
  | zeroDenominator l => s!"{l} has a zero denominator"
  | outOfRange l => s!"{l} is out of range"
  | wrongSort l sort => s!"{l} is not a literal of {sort}"
  | undeclaredSort sort => s!"sort {sort} was not declared"
  | abstractSort sort => s!"sort {sort} is not concrete"
  | foreignTerm t => s!"term {t} does not belong to this session"
  | unknownSymbol name => s!"symbol {name} was not declared"
  | notABooleanLiteral t => s!"assumption {t} is not a Boolean literal"
  | bareKind kind => s!"{kind} sorts need parameters"
  | zeroWidth => "bit-vector width must be positive"
  | emptyDomain => "function sorts need a non-empty domain"
  | unfinalized datatype => s!"datatype {datatype} has unfinalized selectors"
  | unknownHandle index => s!"unknown mock term {index}"
  | noModel => "no model available"
  | tooFewScopes levels => s!"cannot pop {levels} level(s)"
  | notAMember constr datatype => s!"constructor {constr} is not a member of {datatype}"
  | unknownConstructor name => s!"constructor {name} not found"
  | noRacers => "a race needs at least one racer"
  | other text => text

end Misuse

/-- Something that the engine or the library does not provide. -/
inductive Limitation where
  | literalsOf (sort : LogicSort)
  | opaqueTerms
  | nestedConstantBase
  | datatypeToDeclare (datatype engine : String)
  | noDatatypes (engine datatype : String)
  | noChildren (engine : String)
  | noArrayModels (engine : String)
  | wideIndex
  | notEnumerable (sort : LogicSort)
  | arrayAsValue
  | literalNotEvaluated (literal : Literal)
  | opNotEvaluated (prim : PrimOp)
  | opNotBuilt (op : Op)
  | tooManyBits (bits : Nat)
  | other (text : String)

namespace Limitation

def text : Limitation → String
  | literalsOf sort => s!"literals of sort {sort}"
  | opaqueTerms => "walking terms of a builder without term iteration"
  | nestedConstantBase => "constant base of a multi-dimensional array"
  | datatypeToDeclare datatype engine =>
    s!"datatype {datatype} must be declared before translating into {engine}"
  | noDatatypes engine datatype => s!"{engine} cannot declare datatype {datatype}"
  | noChildren engine => s!"{engine} cannot iterate term children"
  | noArrayModels engine => s!"{engine} does not produce array models"
  | wideIndex => "array index too wide to enumerate"
  | notEnumerable sort => s!"cannot enumerate {sort}"
  | arrayAsValue => "array values are returned by get_array_values"
  | literalNotEvaluated l => s!"cannot evaluate {l}"
  | opNotEvaluated prim => s!"mock cannot evaluate {prim}"
  | opNotBuilt op => s!"mock cannot build {op}"
  | tooManyBits bits => s!"{bits} bits is too many to enumerate"
  | other text => text

end Limitation

/-- A broken invariant. -/
inductive Breach where
  | noEngineTerm (term : Term)
  | noConstantBase (engine : String) (term : Term)
  | strangeCoreElement (element : String)
  | unresolvedChild (child term : Term)
  | unresolvedRoot (root : Term)
  | notABoolean (found : Datum)
  | notABitVector (found : Datum)
  | notAnArray (found : Datum)
  | cellOutOfRange
  /-- An argument was read that the arity check should have asked for. -/
  | missingArgument (op : Op) (position : Nat)
  /-- Arithmetic left its machine word, at which the program breaks off. -/
  | overflow
  | other (text : String)

namespace Breach

def text : Breach → String
  | noEngineTerm t => s!"no engine term recorded for {t}"
  | noConstantBase engine t => s!"{engine} gave no constant base for {t}; use get_array_values"
  | strangeCoreElement element =>
    s!"unsat core element {element} was not an assumption of the last check"
  | unresolvedChild child t => s!"child {child} of {t} was not resolved"
  | unresolvedRoot root => s!"{root} was not resolved"
  | notABoolean found => s!"expected a Boolean, got {found}"
  | notABitVector found => s!"expected a bit-vector, got {found}"
  | notAnArray found => s!"expected an array, got {found}"
  | cellOutOfRange => "array index out of range"
  | missingArgument op i => s!"{op} is missing argument {i}"
  | overflow => "arithmetic overflow"
  | other text => text

end Breach

/-- The kind of failure. -/
inductive ErrorKind where
  /-- Never worth retrying. -/
  | usage
  | unsupported
  /-- The session should not be used any further. -/
  | internal
  /-- A race ended without an answer. -/
  | undecided
  deriving DecidableEq

/-- What may not be added twice. -/
inductive Declared where
  | symbol | sort | selector | constr
  deriving DecidableEq

def Declared.name : Declared → String
  | symbol => "symbol"
  | sort => "sort"
  | selector => "selector"
  | constr => "constructor"

inductive Error where
  | unexpectedSort (expected : String) (found : LogicSort)
  | sortMismatch (first second : LogicSort)
  | arity (op : Op) (expected : String) (given : Nat)
  | duplicate (what : Declared) (name : String)
  | usage (cause : Misuse)
  | unsupported (cause : Limitation)
  | internal (cause : Breach)
  | engine (name text : String)
  | undecided

namespace Error

def kind : Error → ErrorKind
  | unexpectedSort _ _ | sortMismatch _ _ | arity _ _ _ | duplicate _ _ | usage _ => .usage
  | unsupported _ => .unsupported
  | internal _ | engine _ _ => .internal
  | undecided => .undecided

def message : Error → String
  | unexpectedSort expected found => s!"Sort {expected} was expected, but {found} was found."
  | sortMismatch first second => s!"Sort {first} and {second} should be identical."
  | arity op expected given => s!"{op} expects {expected} argument(s), but got {given}."
  | duplicate what name => s!"{what.name} '{name}' was already added."
  | usage cause => "Incorrect usage: " ++ cause.text
  | unsupported cause => "Unsupported: " ++ cause.text
  | internal cause => "Internal invariant violated: " ++ cause.text
  | engine name text => s!"Engine {name} failed: {text}"
  | undecided => "No engine produced a definitive answer."

end Error

end FormulaGraph

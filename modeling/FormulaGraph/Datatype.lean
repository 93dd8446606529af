import FormulaGraph.Action

/-!
Declarations of datatypes: a name, parameters in the order of their first use, and constructors with
their selectors.

A selector whose sort is the datatype itself starts as a forward reference and is settled by
`finalize`. The parameters are those that stand alone as the sort of a selector.
-/

namespace FormulaGraph

structure Selector where
  name : String
  sort : LogicSort
  /-- False as long as the sort is a placeholder for the datatype being declared. -/
  finalized : Bool
  deriving DecidableEq

structure ConstructorDecl where
  name : String
  selectors : List Selector := []
  deriving DecidableEq

namespace ConstructorDecl

def push (selector : Selector) : Action ConstructorDecl Unit := fun c =>
  if c.selectors.any (·.name = selector.name) then
    .error (.duplicate .selector selector.name) c
  else .ok () { c with selectors := c.selectors ++ [selector] }

def addSelector (name : String) (sort : LogicSort) : Action ConstructorDecl Unit :=
  push ⟨name, sort, true⟩

/-- Adds a selector whose sort is the datatype under declaration, to be settled later. -/
def addSelectorSelf (name datatype : String) : Action ConstructorDecl Unit :=
  push ⟨name, .unresolved datatype, false⟩

end ConstructorDecl

structure DatatypeDecl where
  name : String
  params : List LogicSort := []
  constructors : List ConstructorDecl := []
  deriving DecidableEq

namespace DatatypeDecl

/-- The parameters once a selector of this sort is known. -/
def withParam (params : List LogicSort) (sort : LogicSort) : List LogicSort :=
  match sort with
  | .param _ => if sort ∈ params then params else params ++ [sort]
  | _ => params

def addConstructor (c : ConstructorDecl) : Action DatatypeDecl Unit := fun d =>
  if d.constructors.any (·.name = c.name) then .error (.duplicate .constr c.name) d
  else
    .ok () { d with
      params := (c.selectors.map Selector.sort).foldl withParam d.params
      constructors := d.constructors ++ [c] }

def find? (d : DatatypeDecl) (constr : String) : Option ConstructorDecl :=
  d.constructors.find? (·.name = constr)

/-- Adds a selector to a constructor that the declaration has already. The parameter that the
selector uses is noted before its name is checked. -/
def addSelector (constr : String) (selector : Selector) : Action DatatypeDecl Unit := fun d =>
  match d.find? constr with
  | none => .error (.usage (.notAMember constr d.name)) d
  | some c =>
    let d := { d with params := withParam d.params selector.sort }
    match ConstructorDecl.push selector c with
    | .ok _ c =>
      .ok () { d with constructors := d.constructors.map fun e => if e.name = constr then c else e }
    | .error e _ => .error e d

def selectorCount (d : DatatypeDecl) (constr : String) : Except Error Nat :=
  match d.find? constr with
  | some c => .ok c.selectors.length
  | none => .error (.usage (.unknownConstructor constr))

/-- Gives its sort to every selector that is not settled yet. -/
def finalize (sort : LogicSort) (d : DatatypeDecl) : DatatypeDecl :=
  let settle (s : Selector) : Selector :=
    if s.finalized then s else { s with sort := sort, finalized := true }
  { d with constructors :=
      d.constructors.map fun c => { c with selectors := c.selectors.map settle } }

def isFinalized (d : DatatypeDecl) : Bool :=
  d.constructors.all fun c => c.selectors.all (·.finalized)

end DatatypeDecl

end FormulaGraph

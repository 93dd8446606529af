import FormulaGraph.Engine
import FormulaGraph.Proofs.Action
import FormulaGraph.Proofs.Error
import FormulaGraph.Proofs.SortArbiter
import Mathlib.Data.List.Forall2

/-!
What a solver may count on of the engine below it.

A contract says when a state of the engine is in order, what the engine's sorts and terms stand for,
and how the engine may fail; an engine honours it if every operation of the surface keeps to it. The
free contract promises nothing, so every engine honours it.
-/

namespace FormulaGraph

/-- How an engine's term was made, with the engine's terms that went into it. -/
structure Blueprint (T : Type) where
  op : Op
  sort : LogicSort
  kind : TermKind
  args : List T

/-- Every term of an array model, the base first. -/
def ArrayModel.terms {T : Type} (m : ArrayModel T) : List T :=
  m.base.toList ++ m.cells.flatMap fun (i, x) => [i, x]

/-- The literal of an engine's term that stands for a value of a sort. -/
def Engine.reading {σ S T : Type} [Engine σ S T] (aliasing : Bool) (e : σ) (n : T)
    (sort : LogicSort) : Literal :=
  match Engine.literal e n with
  | some l => SortArbiter.coerce { aliasing } sort l
  | none => .other (Engine.describe e n)

structure Contract (σ S T : Type) where
  Valid : σ → Prop
  /-- What the first state knows the second knows as well. -/
  Grows : σ → σ → Prop
  Fails : Error → Prop
  Denotes : LogicSort → S → Prop
  Names : σ → T → Blueprint T → Prop
  Apart : T → T → Prop
  /-- Whether truth values are one-bit vectors to the engine. -/
  Aliases : σ → Bool → Prop

namespace Contract

section Terms

variable {σ S T α : Type}

def Steps (K : Contract σ S T) (e e' : σ) : Prop := K.Valid e' ∧ K.Grows e e'

/-- How a call ends that keeps to the contract. -/
def Calls (K : Contract σ S T) (act : Action σ α) (e : σ) (post : α → σ → Prop) : Prop :=
  K.Valid e → Action.Leads K.Steps K.Fails act e post

/-- A call of which nothing is asked but that it loses nothing. -/
def Aside (K : Contract σ S T) (act : Action σ α) : Prop := ∀ e, K.Calls act e fun _ _ => True

/-- The term is none of those that the engine had before. -/
def Fresh (K : Contract σ S T) (e : σ) (n : T) : Prop := ∀ m b, K.Names e m b → K.Apart m n

def Made (K : Contract σ S T) (e : σ) (b : Blueprint T) (n : T) (e' : σ) : Prop :=
  K.Names e' n b ∧ K.Fresh e n

end Terms

variable {σ S T α : Type} [Engine σ S T]

/-- The term stands for a value of the sort, from this state on. -/
def Value (K : Contract σ S T) (aliasing : Bool) (sort : LogicSort) (n : T) (e : σ) : Prop :=
  ∀ e', K.Grows e e' →
    K.Names e' n ⟨.null, sort, .value (Engine.reading aliasing e' n sort), []⟩

structure ModelMade (K : Contract σ S T) (aliasing : Bool) (index element : LogicSort) (e : σ)
    (m : ArrayModel T) (e' : σ) : Prop where
  base : ∀ b ∈ m.base, K.Value aliasing element b e'
  cells : ∀ p ∈ m.cells, K.Value aliasing index p.1 e' ∧ K.Value aliasing element p.2 e'
  fresh : ∀ n ∈ m.terms, K.Fresh e n
  apart : m.terms.Pairwise K.Apart

/-- The engine keeps to the contract from the given states on. -/
structure Honoured (K : Contract σ S T) (start : σ → Prop) : Prop where
  refl : ∀ e, K.Grows e e
  trans : ∀ e e' e'', K.Grows e e' → K.Grows e' e'' → K.Grows e e''
  names : ∀ e e' n b, K.Grows e e' → K.Names e n b → K.Names e' n b
  aliases : ∀ e e' a, K.Grows e e' → K.Aliases e a → K.Aliases e' a
  symm : ∀ m n, K.Apart m n → K.Apart n m
  starts : ∀ e, start e →
    K.Valid e ∧ K.Aliases e ((Engine.capabilities e).has .booleanAliasing)
  /-- A lost term is the only failure that may be ruled out. -/
  fails : ∀ x : Error, x.Plain → K.Fails x
  takeNotices : ∀ e, K.Valid e → K.Steps e (Engine.takeNotices e).2
  setOption : ∀ option value, K.Aside (Engine.setOption option value : Action σ Unit)
  setLogic : ∀ logic, K.Aside (Engine.setLogic logic : Action σ Unit)
  sortOf : ∀ n : T, K.Aside (Engine.sortOf n : Action σ LogicSort)
  assertFormula : ∀ n : T, K.Aside (Engine.assertFormula n : Action σ Unit)
  checkSat : K.Aside (Engine.checkSat : Action σ Verdict)
  checkSatAssuming : ∀ ns : List T, K.Aside (Engine.checkSatAssuming ns : Action σ Verdict)
  checkSatInterruptible : ∀ token, K.Aside (Engine.checkSatInterruptible token : Action σ Verdict)
  getUnsatCore : K.Aside (Engine.getUnsatCore : Action σ (List T))
  push : ∀ levels, K.Aside (Engine.push levels : Action σ Unit)
  pop : ∀ levels, K.Aside (Engine.pop levels : Action σ Unit)
  resetAssertions : K.Aside (Engine.resetAssertions : Action σ Unit)
  reset : ∀ e, K.Valid e →
    match (Engine.reset : Action σ Unit) e with
    | .ok _ e' => K.Valid e' ∧ ∀ a, K.Aliases e a → K.Aliases e' a
    | .error x e' => K.Steps e e' ∧ K.Fails x
  makeSort : ∀ e sort, sort = .bool ∨ sort = .int ∨ sort = .real →
    K.Calls (Engine.makeSort sort.kind) e fun made _ => K.Denotes sort made
  makeBitVecSort : ∀ e w,
    K.Calls (Engine.makeBitVecSort w) e fun made _ => K.Denotes (.bitVec w) made
  makeArraySort : ∀ e index element i x, K.Denotes index i → K.Denotes element x →
    K.Calls (Engine.makeArraySort i x) e fun made _ => K.Denotes (.array index element) made
  makeFunctionSort : ∀ e domain range ds r, List.Forall₂ K.Denotes domain ds → K.Denotes range r →
    K.Calls (Engine.makeFunctionSort ds r) e fun made _ =>
      K.Denotes (.function domain range) made
  makeUninterpretedSort : ∀ e name arity,
    K.Calls (Engine.makeUninterpretedSort name arity) e fun made _ =>
      K.Denotes (.uninterpreted name arity) made
  makeDatatypeSort : ∀ e decl,
    K.Calls (Engine.makeDatatypeSort decl) e fun made _ => K.Denotes (.datatype decl.name) made
  makeValue : ∀ e l sort made, K.Denotes sort made → l.fits sort →
    K.Calls (Engine.makeValue l made) e (K.Made e ⟨.null, sort, .value l, []⟩)
  makeConstArray : ∀ e fill b index made, K.Names e fill b → K.Denotes (.array index b.sort) made →
    K.Calls (Engine.makeConstArray fill made) e
      (K.Made e ⟨.null, .array index b.sort, .constArray, [fill]⟩)
  makeSymbol : ∀ e name sort made, K.Denotes sort made →
    K.Calls (Engine.makeSymbol name made) e (K.Made e ⟨.null, sort, .symbol name, []⟩)
  makeTerm : ∀ e op ns sorts,
    List.Forall₂ (fun n sort => ∃ b, K.Names e n b ∧ b.sort = sort) ns sorts →
    K.Calls (Engine.makeTerm op ns) e fun n e' =>
      ∀ sort, op.Gives sorts sort → K.Made e ⟨op, sort, .application, ns⟩ n e'
  getValue : ∀ e n b a, K.Names e n b → K.Aliases e a →
    K.Calls (Engine.getValue n) e fun v e' => K.Value a b.sort v e' ∧ K.Fresh e v
  getArrayValues : ∀ e n b index element a, K.Names e n b → b.sort = .array index element →
    K.Aliases e a → K.Calls (Engine.getArrayValues n) e (K.ModelMade a index element e)

/-- The contract that asks for nothing. -/
def free (σ S T : Type) : Contract σ S T where
  Valid _ := True
  Grows _ _ := True
  Fails _ := True
  Denotes _ _ := True
  Names _ _ _ := True
  Apart _ _ := True
  Aliases _ _ := True

section Free

variable {σ S T α : Type}

theorem free_calls {act : Action σ α} {e : σ} {post : α → σ → Prop} (holds : ∀ a e', post a e') :
    (free σ S T).Calls act e post := by
  intro _
  cases h : act e with
  | ok a e' => exact (Action.leads_ok h).mpr ⟨⟨trivial, trivial⟩, holds a e'⟩
  | error x e' => exact (Action.leads_error h).mpr ⟨⟨trivial, trivial⟩, trivial⟩

theorem free_aside (act : Action σ α) : (free σ S T).Aside act :=
  fun _ => free_calls fun _ _ => trivial

theorem free_made (e : σ) (b : Blueprint T) (n : T) (e' : σ) : (free σ S T).Made e b n e' :=
  ⟨trivial, fun _ _ _ => trivial⟩

end Free

/-- Whatever an engine does and wherever it starts, it honours the free contract. -/
theorem free_honoured : (free σ S T).Honoured fun _ => True where
  refl _ := trivial
  trans _ _ _ _ _ := trivial
  names _ _ _ _ _ _ := trivial
  aliases _ _ _ _ _ := trivial
  symm _ _ _ := trivial
  starts _ _ := ⟨trivial, trivial⟩
  fails _ _ := trivial
  takeNotices _ _ := ⟨trivial, trivial⟩
  setOption _ _ := free_aside _
  setLogic _ := free_aside _
  sortOf _ := free_aside _
  assertFormula _ := free_aside _
  checkSat := free_aside _
  checkSatAssuming _ := free_aside _
  checkSatInterruptible _ := free_aside _
  getUnsatCore := free_aside _
  push _ := free_aside _
  pop _ := free_aside _
  resetAssertions := free_aside _
  reset e _ := by
    cases (Engine.reset : Action σ Unit) e with
    | ok _ e' => exact ⟨trivial, fun _ _ => trivial⟩
    | error x e' => exact ⟨⟨trivial, trivial⟩, trivial⟩
  makeSort _ _ _ := free_calls fun _ _ => trivial
  makeBitVecSort _ _ := free_calls fun _ _ => trivial
  makeArraySort _ _ _ _ _ _ _ := free_calls fun _ _ => trivial
  makeFunctionSort _ _ _ _ _ _ _ := free_calls fun _ _ => trivial
  makeUninterpretedSort _ _ _ := free_calls fun _ _ => trivial
  makeDatatypeSort _ _ := free_calls fun _ _ => trivial
  makeValue _ _ _ _ _ _ := free_calls (free_made _ _)
  makeConstArray _ _ _ _ _ _ _ := free_calls (free_made _ _)
  makeSymbol _ _ _ _ _ := free_calls (free_made _ _)
  makeTerm _ _ _ _ _ := free_calls fun _ _ _ _ => free_made _ _ _ _
  getValue _ _ _ _ _ _ := free_calls fun _ _ => ⟨fun _ _ => trivial, fun _ _ _ => trivial⟩
  getArrayValues _ _ _ _ _ _ _ _ _ := free_calls fun _ _ => {
    base := fun _ _ _ _ => trivial
    cells := fun _ _ => ⟨fun _ _ => trivial, fun _ _ => trivial⟩
    fresh := fun _ _ _ _ _ => trivial
    apart := List.pairwise_of_forall fun _ _ => trivial }

end Contract

end FormulaGraph

import FormulaGraph.Engine
import FormulaGraph.SortArbiter
import FormulaGraph.Term.Table

/-!
Solvers: an engine together with the graph of canonical terms that mirrors what it has built.

A session starts with the solver and anew at every reset; a term can only be used in the session in
which it was made. The terms carry nothing of the engine: the session knows the engine's term for
each of its own, and the engine's sort for each sort in use. Every operation first checks what it is
given, then asks the engine, then records; so a failure leaves the graph as it was.
-/

namespace FormulaGraph

/-- Where fresh identifiers come from. Solvers that draw on one supply have no identifier in
common. -/
structure Supply where
  nextTerm : Nat := 1
  nextSession : Nat := 1
  deriving Inhabited

/-- What a solver knows in one session. -/
structure Session (S T : Type) [BEq T] [Hashable T] where
  number : Nat
  supply : Supply
  arbiter : SortArbiter
  table : TermTable := {}
  /-- The engine's term for each canonical term. -/
  natives : Std.HashMap Term T := {}
  /-- The engine's sort for each sort in use. -/
  sorts : Std.HashMap LogicSort S := {}
  /-- The names of declared sorts. -/
  declared : Std.HashSet String := {}
  symbols : Std.HashMap String Term := {}
  /-- The assumptions of the latest check under assumptions, by the engine's term. -/
  assumptions : Std.HashMap T Term := {}
  notices : Array Notice := #[]

structure Solver (σ S T : Type) [BEq T] [Hashable T] where
  engine : σ
  session : Session S T

namespace Session

variable {S T : Type} [BEq T] [Hashable T]

/-- The session that follows, with nothing in it. Derivations of sorts are kept: they hold in every
session. -/
def renew (s : Session S T) : Session S T where
  number := s.supply.nextSession
  supply := { s.supply with nextSession := s.supply.nextSession + 1 }
  arbiter := s.arbiter
  notices := s.notices

/-- Whether the sort can be used without declaring anything. Of a compound sort only the outermost
constructor is looked at. -/
def hasSort (s : Session S T) (sort : LogicSort) : Bool :=
  match sort with
  | .uninterpreted _ _ | .datatype _ => s.sorts.contains sort
  | _ => true

/-- The engine's term for a term of this session. -/
def native (s : Session S T) (t : Term) : Except Error T :=
  if t.session ≠ s.number then .error (.usage (.foreignTerm t))
  else
    match s.natives[t]? with
    | some n => .ok n
    | none => .error (.internal (.noEngineTerm t))

def symbol (s : Session S T) (name : String) : Except Error Term :=
  match s.symbols[name]? with
  | some t => .ok t
  | none => .error (.usage (.unknownSymbol name))

/-- The assumption behind an element of an engine's core. -/
def assumption (s : Session S T) (describe : T → String) (element : T) : Except Error Term :=
  match s.assumptions[element]? with
  | some t => .ok t
  | none => .error (.internal (.strangeCoreElement (describe element)))

def note (n : Notice) (s : Session S T) : Session S T :=
  { s with notices := s.notices.push n }

/-- The canonical term of this structure. If it is new, the engine's term is recorded for it;
otherwise that term is dropped. -/
def intern (op : Op) (sort : LogicSort) (kind : TermKind) (children : List Term) (native : T)
    (s : Session S T) : Term × Session S T :=
  let candidate : Term := ⟨s.supply.nextTerm, s.number, op, sort, kind, children⟩
  let s := { s with supply := { s.supply with nextTerm := s.supply.nextTerm + 1 } }
  match s.table.find? candidate with
  | some t => (t, s)
  | none =>
    (candidate, { s with
      table := (s.table.insert candidate).2
      natives := s.natives.insert candidate native })

end Session

namespace Solver

variable {σ S T α : Type} [BEq T] [Hashable T] [Engine σ S T]

/-- A solver over an engine that has not been used yet. -/
def new (engine : σ) (supply : Supply) (evicts : Eviction := .never) : Solver σ S T where
  engine := engine
  session :=
    { number := supply.nextSession
      supply := { supply with nextSession := supply.nextSession + 1 }
      arbiter := { aliasing := (Engine.capabilities engine).has .booleanAliasing, evicts } }

/-- How many canonical terms the session has. -/
def termCount (s : Solver σ S T) : Nat := s.session.table.size

/-- Puts an engine back, and what it has to report among the notices. -/
def withEngine (engine : σ) (session : Session S T) : Solver σ S T :=
  match Engine.takeNotices engine with
  | (ns, engine) =>
    if ns.isEmpty then ⟨engine, session⟩
    else ⟨engine, { session with notices := session.notices ++ ns }⟩

/-- An action of the engine below. -/
def onEngine (act : Action σ α) : Action (Solver σ S T) α := fun ⟨engine, session⟩ =>
  match act engine with
  | .ok a engine => .ok a (withEngine engine session)
  | .error e engine => .error e (withEngine engine session)

/-- A question to the session, which it leaves as it is. -/
def ask (question : Session S T → Except Error α) : Action (Solver σ S T) α := fun s =>
  match question s.session with
  | .ok a => .ok a s
  | .error e => .error e s

/-- A change of the session that cannot fail. -/
def update (change : Session S T → α × Session S T) : Action (Solver σ S T) α :=
  fun ⟨engine, session⟩ =>
    match change session with
    | (a, session) => .ok a ⟨engine, session⟩

def record (change : Session S T → Session S T) : Action (Solver σ S T) Unit :=
  update fun s => ((), change s)

mutual
/-- The engine's sort for a sort, made on first use along with those of its components. -/
def nativeSort (sort : LogicSort) : Action (Solver σ S T) S := do
  match (← get).session.sorts[sort]? with
  | some known => return known
  | none =>
    let made ← match sort with
      | .bool => onEngine (Engine.makeSort .bool)
      | .int => onEngine (Engine.makeSort .int)
      | .real => onEngine (Engine.makeSort .real)
      | .bitVec w => onEngine (Engine.makeBitVecSort w)
      | .array index element => do
        let index ← nativeSort index
        let element ← nativeSort element
        onEngine (Engine.makeArraySort index element)
      | .function domain range => do
        let domain ← nativeSorts domain
        let range ← nativeSort range
        onEngine (Engine.makeFunctionSort domain range)
      | .uninterpreted name arity =>
        throw (.usage (.undeclaredSort (.uninterpreted name arity)))
      | .datatype name => throw (.usage (.undeclaredSort (.datatype name)))
      | .param name => throw (.usage (.abstractSort (.param name)))
      | .unresolved name => throw (.usage (.abstractSort (.unresolved name)))
    record fun s => { s with sorts := s.sorts.insert sort made }
    return made
def nativeSorts : List LogicSort → Action (Solver σ S T) (List S)
  | [] => return []
  | sort :: rest => do
    let first ← nativeSort sort
    return first :: (← nativeSorts rest)
end

def native (t : Term) : Action (Solver σ S T) T := ask (·.native t)

def natives (ts : List Term) : Action (Solver σ S T) (List T) := ts.mapM native

/-- The canonical leaf, or constant array, of a sort. -/
def leaf (sort : LogicSort) (kind : TermKind) (children : List Term) (native : T) :
    Action (Solver σ S T) Term :=
  update (Session.intern .null sort kind children native)

/-- A value of the engine as a canonical literal of a sort. -/
def wrapValue (native : T) (sort : LogicSort) : Action (Solver σ S T) Term := do
  let s ← get
  let l := match Engine.literal s.engine native with
    | some l => s.session.arbiter.coerce sort l
    | none => .other (Engine.describe s.engine native)
  leaf sort (.value l) [] native

end Solver

end FormulaGraph

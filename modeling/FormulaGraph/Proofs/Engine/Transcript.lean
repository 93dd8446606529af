import FormulaGraph.Engine.Command
import FormulaGraph.Proofs.Action
import FormulaGraph.Scripted

/-!
What an engine has been asked since its last reset, and what came of it. Sorts are known to an
engine by its own handles; a command can also be read with the sorts that the handles stand for.
-/

namespace FormulaGraph

namespace Command

variable {A B S T : Type} {c : Command S T}

/-- The same command with other sorts in the place of its own. -/
def mapSorts (f : A → B) : Command A T → Command B T
  | .name => .name
  | .capabilities => .capabilities
  | .setOption option value => .setOption option value
  | .setLogic logic => .setLogic logic
  | .makeSort kind => .makeSort kind
  | .makeBitVecSort width => .makeBitVecSort width
  | .makeArraySort index element => .makeArraySort (f index) (f element)
  | .makeFunctionSort domain range => .makeFunctionSort (domain.map f) (f range)
  | .makeUninterpretedSort n arity => .makeUninterpretedSort n arity
  | .makeDatatypeSort decl => .makeDatatypeSort decl
  | .makeValue l sort => .makeValue l (f sort)
  | .makeConstArray fill sort => .makeConstArray fill (f sort)
  | .makeSymbol n sort => .makeSymbol n (f sort)
  | .makeTerm op args => .makeTerm op args
  | .sortOf t => .sortOf t
  | .opOf t => .opOf t
  | .children t => .children t
  | .literal t => .literal t
  | .assertFormula t => .assertFormula t
  | .checkSat => .checkSat
  | .checkSatAssuming assumptions => .checkSatAssuming assumptions
  | .checkSatInterruptible token => .checkSatInterruptible token
  | .getValue t => .getValue t
  | .getArrayValues t => .getArrayValues t
  | .getUnsatCore => .getUnsatCore
  | .push levels => .push levels
  | .pop levels => .pop levels
  | .reset => .reset
  | .resetAssertions => .resetAssertions

/-- The sorts that the command is handed. -/
def handed : Command S T → List S
  | .makeArraySort index element => [index, element]
  | .makeFunctionSort domain range => range :: domain
  | .makeValue _ sort | .makeConstArray _ sort | .makeSymbol _ sort => [sort]
  | _ => []

/-- The sort that the command is to make. -/
def makes? : Command LogicSort T → Option LogicSort
  | .makeSort .bool => some .bool
  | .makeSort .int => some .int
  | .makeSort .real => some .real
  | .makeBitVecSort width => some (.bitVec width)
  | .makeArraySort index element => some (.array index element)
  | .makeFunctionSort domain range => some (.function domain range)
  | .makeUninterpretedSort n arity => some (.uninterpreted n arity)
  | .makeDatatypeSort decl => some (.datatype decl.name)
  | _ => none

/-- The command goes on record when it is answered: it is not a mere look at the engine, nor a
reset, with which a new record begins. -/
def Entered : Command S T → Prop
  | .name | .capabilities | .literal _ | .reset => False
  | _ => True

/-- The command goes on record, makes no sort and is handed none. -/
def SortFree : Command S T → Prop
  | .name | .capabilities | .literal _ | .reset | .makeSort _ | .makeBitVecSort _
  | .makeArraySort _ _ | .makeFunctionSort _ _ | .makeUninterpretedSort _ _
  | .makeDatatypeSort _ | .makeValue _ _ | .makeConstArray _ _ | .makeSymbol _ _ => False
  | _ => True

theorem SortFree.entered (free : c.SortFree) : c.Entered := by
  cases c with
  | name | capabilities | literal | reset => exact free.elim
  | _ => trivial

theorem entered_of_makes {f : A → LogicSort} {g : A → B} {c : Command A T} {sort : LogicSort}
    (makes : (c.mapSorts f).makes? = some sort) : (c.mapSorts g).Entered := by
  cases c with
  | name | capabilities | literal | reset => cases makes
  | _ => trivial

theorem SortFree.exists_reading (free : c.SortFree) : ∃ c' : Command (LogicSort × S) T,
    c'.mapSorts Prod.snd = c ∧ c'.handed = [] ∧ (c'.mapSorts Prod.fst).makes? = none := by
  refine ⟨c.mapSorts fun handle => (.bool, handle), ?_⟩
  cases c with
  | makeSort | makeBitVecSort | makeArraySort | makeFunctionSort | makeUninterpretedSort
  | makeDatatypeSort | makeValue | makeConstArray | makeSymbol => exact free.elim
  | _ => exact ⟨rfl, rfl, rfl⟩

theorem mapSorts_congr {f g : A → B} {c : Command A T} (same : ∀ sort ∈ c.handed, f sort = g sort) :
    c.mapSorts f = c.mapSorts g := by
  cases c with
  | makeArraySort index element =>
    obtain ⟨sameIndex, sameElement⟩ := List.forall_mem_cons.mp same
    rw [mapSorts, mapSorts, sameIndex, sameElement element (List.mem_singleton_self _)]
  | makeFunctionSort domain range =>
    obtain ⟨sameRange, sameDomain⟩ := List.forall_mem_cons.mp same
    rw [mapSorts, mapSorts, sameRange, List.map_congr_left sameDomain]
  | makeValue _ sort | makeConstArray _ sort | makeSymbol _ sort =>
    rw [mapSorts, mapSorts, same sort (List.mem_singleton_self _)]
  | _ => rfl

theorem mapSorts_mapSorts {C : Type} (f : A → B) (g : B → C) (c : Command A T) :
    (c.mapSorts f).mapSorts g = c.mapSorts (g ∘ f) := by
  cases c with
  | makeFunctionSort domain range => rw [mapSorts, mapSorts, mapSorts, List.map_map]; rfl
  | _ => rfl

end Command

namespace Engine

/-- A command and what came of it. -/
structure Exchange (S T : Type) where
  command : Command S T
  outcome : Except Error (Answer S T)

variable {σ S T : Type} [Engine σ S T] {start : σ → Prop} {e : σ} {exchanges : List (Exchange S T)}

/-- The engine has been called and its notices taken any number of times; these are the calls since
it was last reset, the latest first. A reset that fails is a call as any other. -/
inductive Transcript (start : σ → Prop) : σ → List (Exchange S T) → Prop
  | fresh {e : σ} (starts : start e) : Transcript start e []
  | answered {e e' : σ} {exchanges : List (Exchange S T)}
      (before : Transcript start e exchanges) {c : Command S T}
      (entered : c.Entered) {answer : Answer S T} (done : perform c e = .ok answer e') :
      Transcript start e' (⟨c, .ok answer⟩ :: exchanges)
  | failed {e e' : σ} {exchanges : List (Exchange S T)}
      (before : Transcript start e exchanges) {c : Command S T}
      {x : Error} (done : perform c e = .error x e') :
        Transcript start e' (⟨c, .error x⟩ :: exchanges)
  | renewed {e e' : σ} {exchanges : List (Exchange S T)} (before : Transcript start e exchanges)
      {answer : Answer S T}
      (done : perform (.reset : Command S T) e = .ok answer e') : Transcript start e' []
  | taken {e : σ} {exchanges : List (Exchange S T)} (before : Transcript start e exchanges) :
      Transcript start (takeNotices e).2 exchanges

/-- What was answered in a transcript, the engine has answered. -/
theorem Transcript.performed (transcript : Transcript start e exchanges) {c : Command S T}
    {answer : Answer S T}
    (h : ⟨c, .ok answer⟩ ∈ exchanges) : ∃ e e' : σ, perform c e = .ok answer e' := by
  induction transcript with
  | fresh | renewed => cases h
  | answered _ _ done ih =>
    cases List.mem_cons.mp h with
    | inl same =>
      cases same
      exact ⟨_, _, done⟩
    | inr h => exact ih h
  | failed _ _ ih =>
    cases List.mem_cons.mp h with
    | inl same => cases same
    | inr h => exact ih h
  | taken _ ih => exact ih h

/-- The engine keeps a log of the calls since its last reset. -/
structure Logs (start : σ → Prop) (log : σ → List (Exchange S T)) : Prop where
  fresh : ∀ e, start e → log e = []
  answered : ∀ (c : Command S T) e answer e', c.Entered → perform c e = .ok answer e' →
    log e' = ⟨c, .ok answer⟩ :: log e
  failed : ∀ (c : Command S T) e x e', perform c e = .error x e' → log e' = ⟨c, .error x⟩ :: log e
  renewed : ∀ e answer e', perform (.reset : Command S T) e = .ok answer e' → log e' = []
  taken : ∀ e, log (takeNotices e).2 = log e

/-- If an engine keeps a log, its transcript is what the log says. -/
theorem Transcript.eq_log (transcript : Transcript start e exchanges)
    {log : σ → List (Exchange S T)} (logs : Logs start log) : exchanges = log e := by
  induction transcript with
  | fresh starts => exact (logs.fresh _ starts).symm
  | answered _ entered done ih => rw [logs.answered _ _ _ _ entered done, ih]
  | failed _ done ih => rw [logs.failed _ _ _ _ done, ih]
  | renewed _ done => exact (logs.renewed _ _ _ done).symm
  | taken _ ih => rw [logs.taken, ih]

/-- The handles tell which sorts they were made for. -/
def Labels (label : S → LogicSort) : Prop :=
  ∀ (c : Command S T) (e e' : σ) (made : S) (sort : LogicSort),
    (c.mapSorts label).makes? = some sort → perform c e = .ok (.sort made) e' → label made = sort

end Engine

/-- An engine that also writes down what it is asked and what comes of it. -/
structure Recorder (σ S T : Type) where
  engine : σ
  log : List (Engine.Exchange S T) := []

namespace Recorder

open Engine

variable {σ S T α : Type} [Engine σ S T]

/-- Asks the engine below, and writes down that it was asked this command. -/
def through (c : Command S T) (answer : α → Answer S T) (act : Action σ α) :
    Action (Recorder σ S T) α :=
  fun ⟨engine, log⟩ =>
    match act engine with
    | .ok a engine => .ok a ⟨engine, ⟨c, .ok (answer a)⟩ :: log⟩
    | .error x engine => .error x ⟨engine, ⟨c, .error x⟩ :: log⟩

/-- A command with nothing to answer. -/
def throughDone (c : Command S T) (act : Action σ Unit) : Action (Recorder σ S T) Unit :=
  through c (fun _ => .done) act

def reset : Action (Recorder σ S T) Unit := fun ⟨engine, log⟩ =>
  match (Engine.reset : Action σ Unit) engine with
  | .ok _ engine => .ok () ⟨engine, []⟩
  | .error x engine => .error x ⟨engine, ⟨.reset, .error x⟩ :: log⟩

instance : Engine (Recorder σ S T) S T where
  name e := Engine.name e.engine
  capabilities e := Engine.capabilities e.engine
  setOption option value := throughDone (.setOption option value) (Engine.setOption option value)
  setLogic logic := throughDone (.setLogic logic) (Engine.setLogic logic)
  makeSort kind := through (.makeSort kind) .sort (makeSort kind)
  makeBitVecSort width := through (.makeBitVecSort width) .sort (makeBitVecSort width)
  makeArraySort index element :=
    through (.makeArraySort index element) .sort (makeArraySort index element)
  makeFunctionSort domain range :=
    through (.makeFunctionSort domain range) .sort (makeFunctionSort domain range)
  makeUninterpretedSort n arity :=
    through (.makeUninterpretedSort n arity) .sort (makeUninterpretedSort n arity)
  makeDatatypeSort decl := through (.makeDatatypeSort decl) .sort (makeDatatypeSort decl)
  makeValue l sort := through (.makeValue l sort) .term (makeValue l sort)
  makeConstArray fill sort := through (.makeConstArray fill sort) .term (makeConstArray fill sort)
  makeSymbol n sort := through (.makeSymbol n sort) .term (makeSymbol n sort)
  makeTerm op args := through (.makeTerm op args) .term (makeTerm op args)
  sortOf t := through (.sortOf t) .logicSort (sortOf t)
  opOf t := through (.opOf t) .op (opOf t)
  children t := through (.children t) .terms (Engine.children t)
  literal e t := Engine.literal e.engine t
  assertFormula t := throughDone (.assertFormula t) (assertFormula t)
  checkSat := through .checkSat .verdict checkSat
  checkSatAssuming assumptions :=
    through (.checkSatAssuming assumptions) .verdict (checkSatAssuming assumptions)
  checkSatInterruptible token :=
    through (.checkSatInterruptible token) .verdict (checkSatInterruptible token)
  getValue t := through (.getValue t) .term (getValue t)
  getArrayValues t := through (.getArrayValues t) .arrayModel (getArrayValues t)
  getUnsatCore := through .getUnsatCore .terms getUnsatCore
  push levels := throughDone (.push levels) (Engine.push levels)
  pop levels := throughDone (.pop levels) (Engine.pop levels)
  reset := reset
  resetAssertions := throughDone .resetAssertions Engine.resetAssertions
  describe e t := Engine.describe e.engine t
  takeNotices := fun ⟨engine, log⟩ =>
    ((Engine.takeNotices engine).1, ⟨(Engine.takeNotices engine).2, log⟩)

omit [Engine σ S T] in
theorem through_ok {c : Command S T} {answer : α → Answer S T} {act : Action σ α}
    {r : Recorder σ S T} {a : α} {e : σ} (h : act r.engine = .ok a e) :
    through c answer act r = .ok a ⟨e, ⟨c, .ok (answer a)⟩ :: r.log⟩ := by
  rw [through, h]

omit [Engine σ S T] in
theorem through_error {c : Command S T} {answer : α → Answer S T} {act : Action σ α}
    {r : Recorder σ S T} {x : Error} {e : σ} (h : act r.engine = .error x e) :
    through c answer act r = .error x ⟨e, ⟨c, .error x⟩ :: r.log⟩ := by
  rw [through, h]

omit [Engine σ S T] in
theorem map_through (c : Command S T) (answer : α → Answer S T) (act : Action σ α) :
    answer <$> through c answer act = through c id (answer <$> act) := by
  funext r
  cases h : act r.engine with
  | ok a e => rw [through_ok (Action.map_ok h), Action.map_ok (through_ok h), id]
  | error x e => rw [through_error (Action.map_error h), Action.map_error (through_error h)]

omit [Engine σ S T] in
theorem throughDone_bind (c : Command S T) (act : Action σ Unit) :
    (do throughDone c act; return .done) = through c id (do act; return .done) := by
  rw [bind_pure_comp, bind_pure_comp]
  exact map_through c (fun _ => .done) act

theorem perform_eq_through {c : Command S T} (entered : c.Entered) :
    (perform c : Action (Recorder σ S T) (Answer S T)) = through c id (perform c) := by
  cases c with
  | name | capabilities | literal | reset => exact entered.elim
  | setOption | setLogic | assertFormula | push | pop | resetAssertions =>
    exact throughDone_bind _ _
  | _ => exact map_through _ _ _

theorem log_reset (r : Recorder σ S T) :
    (∃ e, (perform .reset : Action (Recorder σ S T) (Answer S T)) r = .ok .done ⟨e, []⟩) ∨
      ∃ x e, (perform .reset : Action (Recorder σ S T) (Answer S T)) r =
        .error x ⟨e, ⟨.reset, .error x⟩ :: r.log⟩ := by
  cases h : (Engine.reset : Action σ Unit) r.engine with
  | ok a e =>
    have done : reset r = .ok () ⟨e, []⟩ := by rw [reset, h]
    exact .inl ⟨e, Action.bind_ok done⟩
  | error x e =>
    have failed : reset r = .error x ⟨e, ⟨.reset, .error x⟩ :: r.log⟩ := by rw [reset, h]
    exact .inr ⟨x, e, Action.bind_error failed⟩

/-- Nothing has been written down. -/
def Blank (r : Recorder σ S T) : Prop := r.log = []

/-- Every engine can be had with a log. -/
theorem logs : Logs Blank (Recorder.log : Recorder σ S T → List (Exchange S T)) where
  fresh _ blank := blank
  answered c r answer r' entered done := by
    rw [perform_eq_through entered] at done
    cases h : (perform c : Action σ (Answer S T)) r.engine with
    | ok a e =>
      cases (through_ok h).symm.trans done
      rfl
    | error x e => cases (through_error h).symm.trans done
  failed c r x r' failed := by
    by_cases entered : c.Entered
    · rw [perform_eq_through entered] at failed
      cases h : (perform c : Action σ (Answer S T)) r.engine with
      | ok a e => cases (through_ok h).symm.trans failed
      | error y e =>
        cases (through_error h).symm.trans failed
        rfl
    · cases c with
      | name | capabilities | literal => cases failed
      | reset =>
        obtain ⟨e, run⟩ | ⟨y, e, run⟩ := log_reset r
        · cases run.symm.trans failed
        · cases run.symm.trans failed
          rfl
      | _ => exact absurd trivial entered
  renewed r answer r' done := by
    obtain ⟨e, run⟩ | ⟨x, e, run⟩ := log_reset r
    · cases run.symm.trans done
      rfl
    · cases run.symm.trans done
  taken _ := rfl

theorem labels {label : S → LogicSort} (tells : Labels (σ := σ) label) :
    Labels (σ := Recorder σ S T) label := by
  intro c r r' made sort makes done
  have entered : c.Entered := by
    cases c with
    | name | capabilities | literal | reset => cases makes
    | _ => trivial
  rw [perform_eq_through entered] at done
  cases h : (perform c : Action σ (Answer S T)) r.engine with
  | ok answer e =>
    cases (through_ok h).symm.trans done
    exact tells c r.engine e made sort makes h
  | error x e => cases (through_error h).symm.trans done

end Recorder

theorem ScriptedEngine.labels : Engine.Labels (σ := ScriptedEngine) id := by
  -- Each of the operations records the call, and then answers the sort that it is about.
  have answers :
    ∀ {called : Action ScriptedEngine Unit} {given made sort : LogicSort} {e e' : ScriptedEngine},
      (Answer.sort (T := ScriptedTerm) <$> (do called; return given)) e =
        .ok (.sort made) e' → given = sort → id made = sort := by
    rintro called given made sort e e' done rfl
    obtain ⟨_, answered, ⟨⟩⟩ := Action.of_map_ok done
    obtain ⟨-, e₁, -, ⟨⟩⟩ := Action.of_bind_ok answered
    rfl
  intro c e e' made sort makes done
  cases c with
  | makeSort kind =>
    cases kind with
    | bool | int | real => exact answers done (Option.some_inj.mp makes)
    | _ => cases makes
  | makeFunctionSort domain range =>
    refine answers done ?_
    rw [← Option.some_inj, ← makes, Command.mapSorts, List.map_id]
    rfl
  | makeBitVecSort | makeArraySort | makeUninterpretedSort | makeDatatypeSort =>
    exact answers done (Option.some_inj.mp makes)
  | _ => cases makes

end FormulaGraph

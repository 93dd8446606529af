import FormulaGraph.Engine.Command
import FormulaGraph.Proofs.Solver.Rewriting

/-!
Runs of a solver: any sequence of requests, whether they succeed or fail. A request may only use
terms of the session that were answered in it before, or lie below such a term, and any term from
elsewhere.

Every state that a run reaches is coherent, if the engine honours its contract.
-/

namespace FormulaGraph

/-- The terms that a command is about. -/
def Command.terms {S T : Type} : Command S T → List T
  | .makeConstArray fill _ => [fill]
  | .makeTerm _ args => args
  | .checkSatAssuming assumptions => assumptions
  | .sortOf t | .opOf t | .children t | .literal t | .assertFormula t | .getValue t
  | .getArrayValues t => [t]
  | _ => []

/-- The terms that an answer hands out. -/
def Answer.given {S T : Type} : Answer S T → List T
  | .term t => [t]
  | .terms ts => ts
  | .arrayModel m => m.terms
  | _ => []

/-- The requests that a solver serves: those of an engine, and its own. -/
inductive Request where
  | command (c : Command LogicSort Term)
  | makeBool (b : Bool)
  | makeInt (i : Int64) (sort : LogicSort)
  | parseValue (repr : String) (sort : LogicSort) (base : Nat)
  | getSymbol (name : String)
  | substitute (t : Term) (map : TermMap)
  | substituteTerms (ts : List Term) (map : TermMap)
  | transfer (t : Term)

namespace Request

/-- The terms of a map, keys and values. -/
def mapTerms (map : TermMap) : List Term := map.toList.flatMap fun (key, value) => [key, value]

def terms : Request → List Term
  | command c => c.terms
  | substitute t map => t :: mapTerms map
  | substituteTerms ts map => ts ++ mapTerms map
  | transfer t => [t]
  | makeBool _ | makeInt _ _ | parseValue _ _ _ | getSymbol _ => []

/-- The request leaves the model of the last check alone. -/
def KeepsModel : Request → Prop
  | .command .checkSat | .command (.checkSatAssuming _) | .command (.checkSatInterruptible _)
  | .command .reset | .command .resetAssertions => False
  | _ => True

variable {σ S T : Type} [BEq T] [Hashable T] [Engine σ S T]

def perform : Request → Action (Solver σ S T) (Answer LogicSort Term)
  | command c => Engine.perform c
  | makeBool b => .term <$> Solver.makeBool b
  | makeInt i sort => .term <$> Solver.makeInt i sort
  | parseValue repr sort base => .term <$> Solver.parseValue repr sort base
  | getSymbol name => .term <$> Solver.getSymbol name
  | substitute t map => .term <$> Solver.substitute t map
  | substituteTerms ts map => .terms <$> Solver.substituteTerms ts map
  | transfer t => .term <$> Solver.transfer t

end Request

namespace Solver

variable {σ S T α β : Type} [BEq T] [Hashable T] [Engine σ S T] {K : Contract σ S T}
  {start : σ → Prop} {s s' : Solver σ S T} {t : Term} {issued : List Term}
  {P : Solver σ S T → Term → Prop}

/-- Whatever the term has of the solver's session has been answered in it. -/
def Available (s : Solver σ S T) (issued : List Term) (t : Term) : Prop :=
  ∀ a : Term, a.OccursIn t → a.session = s.session.number → ∃ u ∈ issued, a.OccursIn u

/-- What is left of the answers of a session: nothing, once it has ended. -/
def stillIssued (s s' : Solver σ S T) (issued : List Term) : List Term :=
  if s'.session.number = s.session.number then issued else []

/-- A step of a solver, with the terms that it has answered in its session before and after: a
request is answered or fails, the notices are taken, or other solvers draw on the same supply. -/
inductive Advance : Solver σ S T → List Term → Solver σ S T → List Term → Prop
  | answered {s s' : Solver σ S T} {issued : List Term} (q : Request)
      (available : ∀ t ∈ q.terms, s.Available issued t) {answer : Answer LogicSort Term}
      (done : q.perform s = .ok answer s') :
      Advance s issued s' (stillIssued s s' issued ++ answer.given)
  | failed {s s' : Solver σ S T} {issued : List Term} (q : Request)
      (available : ∀ t ∈ q.terms, s.Available issued t) {e : Error}
      (done : q.perform s = .error e s') : Advance s issued s' (stillIssued s s' issued)
  | reported {s : Solver σ S T} {issued : List Term} :
      Advance s issued (Engine.takeNotices s).2 issued
  | elsewhere {s : Solver σ S T} {issued : List Term} {supply : Supply}
      (nextTerm : s.session.supply.nextTerm ≤ supply.nextTerm)
      (nextSession : s.session.supply.nextSession ≤ supply.nextSession) :
      Advance s issued ⟨s.engine, { s.session with supply }⟩ issued

/-- A solver that was started on an engine and has advanced any number of steps. -/
inductive Run (start : σ → Prop) : Solver σ S T → List Term → Prop
  | new {e : σ} (starts : start e) (supply : Supply) (evicts : Eviction := .never) :
      Run start (Solver.new e supply evicts) []
  | next {s s' : Solver σ S T} {issued issued' : List Term} (run : Run start s issued)
      (step : Advance s issued s' issued') : Run start s' issued'

theorem Run.answer_term (run : Run start s issued) (q : Request)
    (available : ∀ u ∈ q.terms, s.Available issued u) {act : Action (Solver σ S T) Term}
    (performs : q.perform s = (.term <$> act : Action (Solver σ S T) (Answer LogicSort Term)) s)
    (done : act s = .ok t s') (lasts : s'.session.number = s.session.number) :
    Run start s' (issued ++ [t]) := by
  have answered : q.perform s = .ok (.term t) s' := by
    rw [performs, Action.map_ok done]
  have longer := run.next (.answered q available answered)
  rw [stillIssued, if_pos lasts] at longer
  exact longer

theorem Run.refused (run : Run start s []) (q : Request)
    (available : ∀ u ∈ q.terms, s.Available [] u) {e : Error}
    (failed : q.perform s = .error e s') : Run start s' [] := by
  have longer := run.next (.failed q available failed)
  rwa [stillIssued, ite_self] at longer

/-- Whatever a request answers has the property. -/
def Serves (K : Contract σ S T) (P : Solver σ S T → Term → Prop)
    (act : Action (Solver σ S T) (Answer LogicSort Term)) (s : Solver σ S T) : Prop :=
  Keeps K act s fun answer s' => ∀ t ∈ answer.given, P s' t

omit [Engine σ S T] in
theorem Keeps.map {act : Action (Solver σ S T) α} {post : α → Solver σ S T → Prop}
    {goal : β → Solver σ S T → Prop} {f : α → β} (keeps : Keeps K act s post)
    (holds : ∀ a s', s'.Coherent K → post a s' → goal (f a) s') : Keeps K (f <$> act) s goal := by
  cases h : act s with
  | ok a s' =>
    obtain ⟨kept, known⟩ := Action.Leads.answer keeps h
    exact (Action.leads_ok (Action.map_ok h)).mpr ⟨kept, holds a s' kept.coherent known⟩
  | error e s' =>
    exact (Action.leads_error (Action.map_error h)).mpr (Action.Leads.failure keeps h)

omit [Engine σ S T] in
theorem serves_term {act : Action (Solver σ S T) Term}
    (keeps : Keeps K act s fun t s' => P s' t) : Serves K P (.term <$> act) s := by
  refine keeps.map fun t s' _ known u hu => ?_
  rw [List.mem_singleton.mp hu]
  exact known

omit [Engine σ S T] in
theorem serves_known (closed : Closed K P) {act : Action (Solver σ S T) Term}
    (keeps : Keeps K act s fun t s' => s'.session.Has t) : Serves K P (.term <$> act) s :=
  serves_term (keeps.mono fun _ _ kept known => closed.has _ _ kept.coherent known)

omit [Engine σ S T] in
theorem serves_other {act : Action (Solver σ S T) α} {post : α → Solver σ S T → Prop}
    {f : α → Answer LogicSort Term} (keeps : Keeps K act s post) (none : ∀ a, (f a).given = []) :
    Serves K P (f <$> act) s := by
  refine keeps.map fun a s' _ _ t ht => ?_
  rw [none a] at ht
  exact absurd ht List.not_mem_nil

theorem serves_done (honoured : K.Honoured start) {act : Action (Solver σ S T) Unit}
    {post : Unit → Solver σ S T → Prop} (keeps : Keeps K act s post) :
    Serves K P (do act; return .done) s :=
  keeps.bind honoured fun _ _ kept _ =>
    keeps_pure honoured kept.coherent fun _ ht => absurd ht List.not_mem_nil

theorem serves_now (honoured : K.Honoured start) (coherent : s.Coherent K)
    {answer : Solver σ S T → Answer LogicSort Term}
    (holds : ∀ t ∈ (answer s).given, P s t) :
    Serves K P (fun s => .ok (answer s) s) s :=
  ⟨.refl honoured coherent, holds⟩

theorem serves_command [EquivBEq T] [LawfulHashable T] (honoured : K.Honoured start)
    (closed : Closed K P) (coherent : s.Coherent K) {c : Command LogicSort Term}
    (handed : ∀ t ∈ c.terms, P s t) (lasting : c ≠ .reset) : Serves K P (Engine.perform c) s := by
  have genuine : ∀ t ∈ c.terms, s.session.Genuine t := fun t ht => closed.genuine s t (handed t ht)
  have aside : ∀ {α : Type} {act : Action σ α}, K.Aside act →
      Keeps K (onEngine act) s fun _ _ => True :=
    fun h => (keeps_aside honoured coherent h).mono fun _ _ _ _ => trivial
  cases c with
  | name | capabilities =>
    exact serves_now honoured coherent fun t ht => absurd ht List.not_mem_nil
  | literal t => exact serves_now honoured coherent fun t ht => absurd ht List.not_mem_nil
  | setOption option value => exact serves_done honoured (aside (honoured.setOption option value))
  | setLogic logic => exact serves_done honoured (aside (honoured.setLogic logic))
  | makeSort kind => exact serves_other (keeps_makeSort honoured coherent kind) fun _ => rfl
  | makeBitVecSort width =>
    exact serves_other (keeps_makeBitVecSort honoured coherent width) fun _ => rfl
  | makeArraySort index element =>
    exact serves_other (keeps_withNative honoured coherent (.array index element)) fun _ => rfl
  | makeFunctionSort domain range =>
    exact serves_other (keeps_makeFunctionSort honoured coherent domain range) fun _ => rfl
  | makeUninterpretedSort name arity =>
    exact serves_other (keeps_makeUninterpretedSort honoured coherent name arity) fun _ => rfl
  | makeDatatypeSort decl =>
    exact serves_other (keeps_makeDatatypeSort honoured coherent decl) fun _ => rfl
  | makeValue l sort => exact serves_known closed (keeps_makeValue honoured coherent l sort)
  | makeConstArray fill sort =>
    exact serves_known closed
      (keeps_makeConstArray honoured coherent (genuine fill List.mem_cons_self) sort)
  | makeSymbol name sort =>
    exact serves_known closed (keeps_makeSymbol honoured coherent name sort)
  | makeTerm op args => exact serves_known closed (keeps_makeTerm honoured coherent op genuine)
  | sortOf t | opOf t =>
    exact (keeps_pure honoured coherent fun _ hu => absurd hu List.not_mem_nil)
  | children t =>
    have node := handed t List.mem_cons_self
    exact serves_now honoured coherent fun c hc => closed.child s t c coherent node hc
  | assertFormula t =>
    exact serves_done honoured
      (keeps_assertFormula honoured coherent (genuine t List.mem_cons_self))
  | checkSat => exact serves_other (aside honoured.checkSat) fun _ => rfl
  | checkSatAssuming assumptions =>
    exact serves_other (keeps_checkSatAssuming honoured coherent genuine) fun _ => rfl
  | checkSatInterruptible token =>
    exact serves_other (aside (honoured.checkSatInterruptible token)) fun _ => rfl
  | getValue t =>
    exact serves_known closed (keeps_getValue honoured coherent (genuine t List.mem_cons_self))
  | getArrayValues t =>
    refine (keeps_getArrayValues honoured coherent (genuine t List.mem_cons_self)).map ?_
    rintro m s' coherent' ⟨hbase, hcells⟩ u hu
    apply closed.has s' u coherent'
    cases List.mem_append.mp hu with
    | inl hu => exact hbase u (Option.mem_toList.mp hu)
    | inr hu =>
      obtain ⟨p, hp, hu⟩ := List.mem_flatMap.mp hu
      cases List.mem_cons.mp hu with
      | inl same => exact same ▸ (hcells p hp).1
      | inr hu => exact List.mem_singleton.mp hu ▸ (hcells p hp).2
  | getUnsatCore =>
    refine (keeps_getUnsatCore honoured coherent).map fun core s' coherent' known u hu => ?_
    exact closed.has s' u coherent' (known u hu)
  | push levels => exact serves_done honoured (aside (honoured.push levels))
  | pop levels => exact serves_done honoured (aside (honoured.pop levels))
  | reset => exact absurd rfl lasting
  | resetAssertions => exact serves_done honoured (keeps_resetAssertions honoured coherent)

theorem image_mem_mapTerms {map : TermMap} {a u : Term} (found : map[a]? = some u) :
    u ∈ Request.mapTerms map := by
  obtain ⟨key, _, member⟩ := Std.HashMap.getElem?_eq_some_iff_exists_beq_and_mem_toList.mp found
  exact List.mem_flatMap.mpr ⟨(key, u), member, List.mem_cons_of_mem _ List.mem_cons_self⟩

/-- What a request answers has every closed property that the terms have that it is given. -/
theorem serves_closed [EquivBEq T] [LawfulHashable T] (honoured : K.Honoured start)
    (closed : Closed K P) (coherent : s.Coherent K) {q : Request} (handed : ∀ t ∈ q.terms, P s t)
    (lasting : q ≠ .command .reset) : Serves K P q.perform s := by
  cases q with
  | command c =>
    exact serves_command honoured closed coherent handed fun same => lasting (congrArg _ same)
  | makeBool b => exact serves_known closed (keeps_makeValue honoured coherent _ _)
  | makeInt i sort => exact serves_known closed (keeps_makeInt honoured coherent i sort)
  | parseValue repr sort base =>
    exact serves_known closed (keeps_parseValue honoured coherent repr sort base)
  | getSymbol name =>
    refine serves_known closed
      (keeps_ask honoured coherent (fun t answered => ?_) fun e failed => ?_)
    · unfold Session.symbol at answered
      split at answered
      · rename_i found
        cases answered
        exact ((coherent.canonical.symbols name t).mp found).1
      · cases answered
    · unfold Session.symbol at failed
      split at failed
      · cases failed
      · cases failed
        exact honoured.fails _ trivial
  | substitute t map =>
    refine serves_term (keeps_substitute honoured closed coherent (handed t List.mem_cons_self) ?_)
    exact fun a u found => handed u (List.mem_cons_of_mem _ (image_mem_mapTerms found))
  | substituteTerms ts map =>
    refine (keeps_substituteTerms honoured closed coherent ?_ ?_).map fun us s' _ known u hu =>
      known u hu
    · exact fun t ht => handed t (List.mem_append_left _ ht)
    · exact fun a u found => handed u (List.mem_append_right _ (image_mem_mapTerms found))
  | transfer t =>
    exact serves_term (keeps_transfer honoured closed coherent (handed t List.mem_cons_self))

theorem serves_request [EquivBEq T] [LawfulHashable T] (honoured : K.Honoured start)
    (coherent : s.Coherent K) {q : Request} (genuine : ∀ t ∈ q.terms, s.session.Genuine t)
    (lasting : q ≠ .command .reset) :
    Serves K (fun s t => s.session.Genuine t) q.perform s :=
  serves_closed honoured closed_genuine coherent genuine lasting

omit [Engine σ S T] in
theorem Available.genuine (known : ∀ u ∈ issued, s.session.Genuine u)
    (available : s.Available issued t) :
    s.session.Genuine t := by
  intro a ha number
  obtain ⟨u, hu, below⟩ := available a ha number
  exact known u hu a below number

theorem reset_answered (honoured : K.Honoured start) (coherent : s.Coherent K)
    {answer : Answer LogicSort Term} (done : (Request.command .reset).perform s = .ok answer s') :
    s'.Coherent K ∧ s.session.number < s'.session.number ∧ answer = .done := by
  have led := coherent_reset honoured coherent
  have run : (Request.command .reset).perform s =
      (reset >>= fun _ => pure .done : Action (Solver σ S T) (Answer LogicSort Term)) s := rfl
  rw [run] at done
  cases h : (reset : Action (Solver σ S T) Unit) s with
  | ok _ s'' =>
    rw [Action.bind_ok h] at done
    rw [h] at led
    cases done
    exact ⟨led.1, led.2, rfl⟩
  | error e s'' =>
    rw [Action.bind_error h] at done
    cases done

theorem reset_failed (honoured : K.Honoured start) (coherent : s.Coherent K) {e : Error}
    (done : (Request.command .reset).perform s = .error e s') : Kept K s s' ∧ K.Fails e := by
  have led := coherent_reset honoured coherent
  have run : (Request.command .reset).perform s =
      (reset >>= fun _ => pure .done : Action (Solver σ S T) (Answer LogicSort Term)) s := rfl
  rw [run] at done
  cases h : (reset : Action (Solver σ S T) Unit) s with
  | ok _ s'' =>
    rw [Action.bind_ok h] at done
    cases done
  | error e s'' =>
    rw [Action.bind_error h] at done
    rw [h] at led
    cases done
    exact led

theorem request_failed [EquivBEq T] [LawfulHashable T] (honoured : K.Honoured start)
    (coherent : s.Coherent K) {q : Request} (genuine : ∀ t ∈ q.terms, s.session.Genuine t)
    {e : Error} (done : q.perform s = .error e s') : Kept K s s' ∧ K.Fails e := by
  by_cases lasting : q = .command .reset
  · subst lasting
    exact reset_failed honoured coherent done
  · exact Action.Leads.failure (serves_request honoured coherent genuine lasting) done

theorem Advance.coherent [EquivBEq T] [LawfulHashable T] (honoured : K.Honoured start)
    {issued' : List Term} (step : Advance s issued s' issued') (coherent : s.Coherent K)
    (known : ∀ u ∈ issued, s.session.Genuine u) :
    s'.Coherent K ∧ (∀ u ∈ issued', s'.session.Genuine u) ∧
      (s'.session.number = s.session.number → s.session.Extends s'.session) := by
  cases step with
  | answered q available done =>
    by_cases lasting : q = .command .reset
    · subst lasting
      obtain ⟨coherent', later, rfl⟩ := reset_answered honoured coherent done
      rw [stillIssued, if_neg (by omega)]
      exact ⟨coherent', fun u hu => absurd hu List.not_mem_nil, fun same => by omega⟩
    · have served := serves_request honoured coherent
        (fun t ht => (available t ht).genuine known) lasting
      obtain ⟨kept, genuine⟩ := Action.Leads.answer served done
      rw [stillIssued, if_pos kept.extension.number]
      refine ⟨kept.coherent, fun u hu => ?_, fun _ => kept.extension⟩
      cases List.mem_append.mp hu with
      | inl hu => exact (known u hu).extend kept.extension
      | inr hu => exact genuine u hu
  | failed q available done =>
    obtain ⟨kept, -⟩ := request_failed honoured coherent
      (fun t ht => (available t ht).genuine known) done
    rw [stillIssued, if_pos kept.extension.number]
    exact ⟨kept.coherent, fun u hu => (known u hu).extend kept.extension, fun _ => kept.extension⟩
  | reported =>
    refine ⟨?_, known, fun _ => .congr rfl rfl rfl rfl rfl⟩
    exact coherent.congr rfl rfl rfl rfl rfl coherent.canonical.assumptions rfl
      coherent.canonical.memo rfl coherent.mirrored.sorts
  | elsewhere nextTerm nextSession =>
    refine ⟨⟨?_, ?_⟩, known, fun _ => .congr rfl rfl rfl rfl rfl⟩
    · exact coherent.canonical.congr rfl rfl rfl rfl rfl nextTerm nextSession
        coherent.canonical.memo
    · exact coherent.mirrored.congr rfl rfl rfl rfl coherent.mirrored.sorts

/-- Every state that a run reaches is coherent, and what was answered in its session is genuine. -/
theorem Run.coherent [EquivBEq T] [LawfulHashable T] (honoured : K.Honoured start)
    (run : Run start s issued) : s.Coherent K ∧ ∀ u ∈ issued, s.session.Genuine u := by
  induction run with
  | @new e starts supply =>
    obtain ⟨valid, aliases⟩ := honoured.starts e starts
    refine ⟨coherent_of_empty rfl rfl rfl rfl rfl (Nat.lt_succ_self _) ?_ valid aliases, ?_⟩
    · intro op args sort found
      simp [Solver.new] at found
    · exact fun u hu => absurd hu List.not_mem_nil
  | next _ step ih =>
    obtain ⟨coherent, known, -⟩ := step.coherent honoured ih.1 ih.2
    exact ⟨coherent, known⟩

end Solver

end FormulaGraph

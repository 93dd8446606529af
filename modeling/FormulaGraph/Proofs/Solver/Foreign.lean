import FormulaGraph.Proofs.Solver.Run
import FormulaGraph.Proofs.Solver.SortMaking

/-!
Terms of other sessions.

An operation that hands terms to the engine looks up all of them before it does anything else. If
one of them is foreign it fails there, so the engine is never asked; about a term whose engine's
term is recorded, none of these operations has anything to say.
-/

namespace FormulaGraph

/-- The request hands the terms that it is given to the engine. -/
def Request.HandsOver : Request → Prop
  | .command (.makeTerm _ _) | .command (.makeConstArray _ _) | .command (.assertFormula _)
  | .command (.checkSatAssuming _) | .command (.getValue _) | .command (.getArrayValues _) => True
  | _ => False

namespace Session

variable {S T : Type} [BEq T] [Hashable T] {s s' : Session S T} {t : Term}

/-- The term is one of the session, and the engine's term is there for it. -/
def Records (s : Session S T) (t : Term) : Prop := ∃ n, s.native t = .ok n

theorem Records.congr (records : s.Records t) (number : s'.number = s.number)
    (natives : s'.natives = s.natives) : s'.Records t := by
  obtain ⟨n, found⟩ := records
  refine ⟨n, ?_⟩
  rw [native, number, natives]
  exact found

theorem Records.intern (records : s.Records t) (op : Op) (sort : LogicSort) (kind : TermKind)
    (children : List Term) (native : T) : (s.intern op sort kind children native).2.Records t := by
  cases found : s.table.find? (s.candidate op sort kind children) with
  | none =>
    rw [intern_miss found native]
    obtain ⟨n, known⟩ := records
    obtain ⟨number, known⟩ := native_ok known
    have still : ∃ m, (s.add (s.candidate op sort kind children) native).natives[t]? = some m := by
      rw [getElem?_natives_add]
      split
      · exact ⟨native, rfl⟩
      · exact ⟨n, known⟩
    obtain ⟨m, known⟩ := still
    exact ⟨m, native_of_has number known⟩
  | some u =>
    have hit : s.intern op sort kind children native = (u, s.tick) := by
      rw [candidate] at found
      rw [Session.intern]
      simp only [found]
      rfl
    rw [hit]
    exact records.congr rfl rfl

theorem native_of_foreign (foreign : t.session ≠ s.number) :
    s.native t = .error (.usage (.foreignTerm t)) := by
  rw [native, if_pos foreign]

/-- Of these terms none is missing, and one is foreign: so the first that is not found is a foreign
one. -/
theorem natives_foreign {ts : List Term} (foreign : ∃ t ∈ ts, t.session ≠ s.number)
    (recorded : ∀ t ∈ ts, t.session = s.number → s.Records t) :
    ∃ t, t.session ≠ s.number ∧ ts.mapM s.native = .error (.usage (.foreignTerm t)) := by
  induction ts with
  | nil =>
    obtain ⟨t, ht, -⟩ := foreign
    exact absurd ht List.not_mem_nil
  | cons t ts ih =>
    rw [List.mapM_cons]
    by_cases number : t.session = s.number
    · obtain ⟨n, found⟩ := recorded t List.mem_cons_self number
      obtain ⟨u, hu, other⟩ := foreign
      have later : ∃ u ∈ ts, u.session ≠ s.number := by
        cases List.mem_cons.mp hu with
        | inl same => exact absurd (same ▸ number) other
        | inr hu => exact ⟨u, hu, other⟩
      obtain ⟨v, away, failed⟩ := ih later fun w hw => recorded w (List.mem_cons_of_mem _ hw)
      exact ⟨v, away, by rw [found, failed]; rfl⟩
    · exact ⟨t, number, by rw [native_of_foreign number]; rfl⟩

end Session

theorem error_of_requirement {α : Type} {c : Prop} [Decidable c] {a : α} {e e' : Error}
    (failed : (if c then .ok a else .error e' : Except Error α) = .error e) : e' = e := by
  split at failed
  · cases failed
  · cases failed
    rfl

namespace LogicSort

variable {sort sort' : LogicSort} {e : Error}

theorem expectBool_usage (failed : sort.expectBool = .error e) : e.kind = .usage := by
  rw [← error_of_requirement failed]
  rfl

theorem expectSame_usage (failed : sort.expectSame sort' = .error e) : e.kind = .usage := by
  rw [← error_of_requirement failed]
  rfl

theorem expectArray_usage (failed : sort.expectArray = .error e) : e.kind = .usage := by
  unfold expectArray at failed
  split at failed
  · cases failed
  · cases failed
    rfl

end LogicSort

namespace Solver

open FormulaGraph.Action

section Refusals

variable {S T α β : Type} [BEq T] [Hashable T] {session : Session S T}

/-- Whatever engine stands below and whatever state it is in, the action fails with this one error
of usage, and leaves the engine and the session as they are. -/
def Refused (session : Session S T)
    (act : ∀ (σ : Type) [Engine σ S T], Action (Solver σ S T) α) : Prop :=
  ∃ e : Error, e.kind = .usage ∧
    ∀ (σ : Type) [Engine σ S T] (x : σ), act σ ⟨x, session⟩ = .error e ⟨x, session⟩

theorem Refused.bind {act : ∀ (σ : Type) [Engine σ S T], Action (Solver σ S T) α}
    (refused : Refused session act)
    (next : ∀ (σ : Type) [Engine σ S T], α → Action (Solver σ S T) β) :
    Refused session fun σ _ => act σ >>= next σ := by
  obtain ⟨e, usage, fails⟩ := refused
  exact ⟨e, usage, fun σ _ x => bind_error (fails σ x)⟩

theorem Refused.map {act : ∀ (σ : Type) [Engine σ S T], Action (Solver σ S T) α}
    (refused : Refused session act) (f : α → β) : Refused session fun σ _ => f <$> act σ := by
  obtain ⟨e, usage, fails⟩ := refused
  exact ⟨e, usage, fun σ _ x => map_error (fails σ x)⟩

theorem refused_ofExcept {r : Except Error α}
    {next : ∀ (σ : Type) [Engine σ S T], α → Action (Solver σ S T) β}
    (usage : ∀ e, r = .error e → e.kind = .usage)
    (rest : ∀ a, r = .ok a → Refused session fun σ _ => next σ a) :
    Refused session fun σ _ => Action.ofExcept r >>= next σ := by
  cases r with
  | error e => exact ⟨e, usage e rfl, fun σ _ x => rfl⟩
  | ok a => exact rest a rfl

theorem refused_native {t : Term} (foreign : t.session ≠ session.number) :
    Refused session fun σ [Engine σ S T] => native t := by
  refine ⟨.usage (.foreignTerm t), rfl, fun σ _ x => ?_⟩
  show ask (·.native t) ⟨x, session⟩ = _
  rw [ask, Session.native_of_foreign foreign]

theorem refused_natives {ts : List Term} (foreign : ∃ t ∈ ts, t.session ≠ session.number)
    (recorded : ∀ t ∈ ts, t.session = session.number → session.Records t) :
    Refused session fun σ [Engine σ S T] => natives ts := by
  obtain ⟨t, -, failed⟩ := Session.natives_foreign foreign recorded
  refine ⟨.usage (.foreignTerm t), rfl, fun σ _ x => ?_⟩
  show natives ts ⟨x, session⟩ = _
  rw [natives_eq_ask, ask, failed]

theorem refused_getArrayValues {t : Term} (foreign : t.session ≠ session.number) :
    Refused session fun σ [Engine σ S T] => getArrayValues t :=
  refused_ofExcept (fun _ => LogicSort.expectArray_usage) fun _ _ => (refused_native foreign).bind _

theorem refused_getValue {t : Term} (foreign : t.session ≠ session.number) :
    Refused session fun σ [Engine σ S T] => getValue t := by
  by_cases array : t.sort.isArray = true
  · simp only [getValue, if_pos array]
    exact (refused_getArrayValues foreign).bind _
  · simp only [getValue, if_neg array]
    exact (refused_native foreign).bind _

theorem booleanLiterals_usage {ts : List Term} {e : Error}
    (failed : ts.forM expectBooleanLiteral = .error e) : e.kind = .usage := by
  induction ts with
  | nil => cases failed
  | cons t ts ih =>
    have failed :
      (expectBooleanLiteral t >>= fun _ => ts.forM expectBooleanLiteral) = .error e := failed
    cases first : expectBooleanLiteral t with
    | ok _ =>
      rw [first] at failed
      exact ih failed
    | error e' =>
      rw [first] at failed
      cases failed
      rw [← error_of_requirement first]
      rfl

/-- An operation that is given a foreign term to hand to the engine asks nothing of the engine and
changes nothing. -/
theorem refused_of_foreign {q : Request} (hands : q.HandsOver)
    (foreign : ∃ t ∈ q.terms, t.session ≠ session.number)
    (recorded : ∀ t ∈ q.terms, t.session = session.number → session.Records t) :
    Refused session fun σ [Engine σ S T] => q.perform := by
  have alone : ∀ {t : Term}, (∃ u ∈ [t], u.session ≠ session.number) →
      t.session ≠ session.number := by
    rintro t ⟨u, hu, other⟩
    exact List.mem_singleton.mp hu ▸ other
  cases q with
  | command c =>
    cases c with
    | makeTerm op args => exact ((refused_natives foreign recorded).bind _).map _
    | makeConstArray fill sort =>
      refine Refused.map (refused_ofExcept (fun _ => LogicSort.expectArray_usage) fun _ _ => ?_) _
      refine refused_ofExcept (fun _ => LogicSort.expectSame_usage) fun _ _ => ?_
      exact (refused_native (alone foreign)).bind _
    | assertFormula t =>
      refine Refused.bind (refused_ofExcept (fun _ => LogicSort.expectBool_usage) fun _ _ => ?_) _
      exact (refused_native (alone foreign)).bind _
    | checkSatAssuming ts =>
      refine Refused.map (refused_ofExcept (fun _ => booleanLiterals_usage) fun _ _ => ?_) _
      exact (refused_natives foreign recorded).bind _
    | getValue t => exact (refused_getValue (alone foreign)).map _
    | getArrayValues t => exact (refused_getArrayValues (alone foreign)).map _
    | _ => exact hands.elim
  | _ => exact hands.elim

end Refusals

section Recorded

variable {σ S T α β : Type} [BEq T] [Hashable T] [Engine σ S T] {s : Solver σ S T}
    {t : Term} {e : Error}

/-- The error finds no fault with this term, unless it is one that an operation of the engine
gave. -/
def Excused (σ : Type) {S T : Type} [Engine σ S T] (t : Term) (e : Error) : Prop :=
  (e = .usage (.foreignTerm t) ∨ e = .internal (.noEngineTerm t)) →
    ∃ (c : Command S T) (x x' : σ), Engine.perform c x = .error e x'

omit [BEq T] [Hashable T] in
theorem excused_of_fair (fair : e.Fair) : Excused σ t e := by
  rintro (rfl | rfl)
  · exact fair.elim
  · exact fair.elim

/-- However the action ends, the term is still recorded, and nobody but the engine finds fault with
it. -/
abbrev Spares (t : Term) (act : Action (Solver σ S T) α) (s : Solver σ S T) : Prop :=
  Leads (fun _ s' => s'.session.Records t) (Excused σ t) act s fun _ _ => True

theorem Spares.bind {act : Action (Solver σ S T) α} {next : α → Action (Solver σ S T) β}
    (first : Spares t act s)
    (rest : ∀ a s', s'.session.Records t → Spares t (next a) s') : Spares t (act >>= next) s :=
  Leads.bind (fun _ h => h) first fun a s' records _ => rest a s' records

theorem Spares.map {act : Action (Solver σ S T) α} (spares : Spares t act s) (f : α → β) :
    Spares t (f <$> act) s :=
  Leads.map spares fun _ _ _ => trivial

theorem spares_pure (records : s.session.Records t) (a : α) : Spares t (pure a) s :=
  leads_pure records trivial

theorem spares_throw (records : s.session.Records t) (fair : e.Fair) :
    Spares t (throw e : Action (Solver σ S T) α) s :=
  leads_throw records (excused_of_fair fair)

theorem spares_ofExcept (records : s.session.Records t) {r : Except Error α} (plain : Plainly r) :
    Spares t (Action.ofExcept r) s :=
  leads_ofExcept records (fun _ _ => trivial) fun e failed => excused_of_fair (plain e failed)

theorem spares_update (records : s.session.Records t) {change : Session S T → α × Session S T}
    (number : (change s.session).2.number = s.session.number)
    (natives : (change s.session).2.natives = s.session.natives) : Spares t (update change) s :=
  ⟨records.congr number natives, trivial⟩

theorem spares_onEngine (records : s.session.Records t) {act : Action σ α}
    (asked : ∀ e x x', act x = .error e x' → ∃ c : Command S T, Engine.perform c x = .error e x') :
    Spares t (onEngine act) s := by
  cases h : onEngine act s with
  | ok a s' =>
    obtain ⟨x', notices, -, rfl⟩ := of_onEngine_ok h
    exact (leads_ok h).mpr ⟨records.congr rfl rfl, trivial⟩
  | error e s' =>
    obtain ⟨x', notices, called, rfl⟩ := of_onEngine_error h
    obtain ⟨c, failed⟩ := asked e s.engine x' called
    exact (leads_error h).mpr ⟨records.congr rfl rfl, fun _ => ⟨c, s.engine, x', failed⟩⟩

theorem spares_call (records : s.session.Records t) (c : Command S T) {act : Action σ α}
    {f : α → Answer S T} (performs : (Engine.perform c : Action σ (Answer S T)) = f <$> act) :
    Spares t (onEngine act) s :=
  spares_onEngine records fun _ _ _ failed => ⟨c, by rw [performs, map_error failed]⟩

theorem spares_intern (records : s.session.Records t) (op : Op) (sort : LogicSort) (kind : TermKind)
    (children : List Term) (native : T) :
    Spares t (update (Session.intern op sort kind children native)) s :=
  ⟨records.intern op sort kind children native, trivial⟩

theorem spares_native (records : s.session.Records t) (u : Term) : Spares t (native u) s := by
  obtain ⟨n, found⟩ := id records
  cases asked : s.session.native u with
  | ok m =>
    have run : native u s = .ok m s := by rw [native, ask, asked]
    exact (leads_ok run).mpr ⟨records, trivial⟩
  | error e =>
    have run : native u s = .error e s := by rw [native, ask, asked]
    refine (leads_error run).mpr ⟨records, fun fault => ?_⟩
    have same : u = t := by
      unfold Session.native at asked
      split at asked
      · cases asked
        obtain same | same := fault
        · cases same
          rfl
        · cases same
      · split at asked
        · cases asked
        · cases asked
          obtain same | same := fault
          · cases same
          · cases same
            rfl
    rw [same, found] at asked
    cases asked

theorem spares_natives (records : s.session.Records t) (ts : List Term) :
    Spares t (natives ts) s := by
  induction ts generalizing s with
  | nil => exact spares_pure records []
  | cons u us ih =>
    rw [natives, List.mapM_cons]
    exact (spares_native records u).bind fun _ _ records =>
      Spares.bind (ih records) fun _ _ records => spares_pure records _

theorem spares_get {next : Solver σ S T → Action (Solver σ S T) α} (spares : Spares t (next s) s) :
    Spares t (get >>= next) s :=
  spares

theorem spares_follows : FollowsUses
    (fun s s' : Solver σ S T => s.session.Records t → s'.session.Records t) (Excused σ t) where
  refl _ := id
  trans first second := second ∘ first
  undeclared _ := excused_of_fair trivial
  abstract _ := excused_of_fair trivial
  first {s sort command make} use := by
    cases h : (onEngine make : Action (Solver σ S T) S) s with
    | ok made s' =>
      obtain ⟨x, notices, -, rfl⟩ := of_onEngine_ok h
      have run : useFirst sort make s = .ok made _ := bind_ok h
      exact (leads_ok run).mpr ⟨fun records => records.congr rfl rfl, trivial⟩
    | error e s' =>
      obtain ⟨x, notices, called, rfl⟩ := of_onEngine_error h
      have run : useFirst sort make s = .error e _ := bind_error h
      refine (leads_error run).mpr ⟨fun records => records.congr rfl rfl, fun _ =>
        ⟨command.mapSorts Prod.snd, s.engine, x, ?_⟩⟩
      rw [use.performs, map_error called]

theorem spares_nativeSort (sort : LogicSort) {s : Solver σ S T} (records : s.session.Records t) :
    Spares t (nativeSort sort) s :=
  ((leads_nativeSort spares_follows sort s).weaken fun _ kept => kept records).mono
    fun _ _ _ _ => trivial

theorem spares_derive (records : s.session.Records t) (op : Op) (args : List LogicSort) :
    Spares t (derive op args) s := by
  cases h : SortArbiter.derive op args s.session.arbiter with
  | ok derived arbiter =>
    have run : derive op args s = .ok derived ⟨s.engine, { s.session with arbiter }⟩ := by
      rw [derive, h]
    exact (leads_ok run).mpr ⟨records.congr rfl rfl, trivial⟩
  | error e arbiter =>
    have run : derive op args s = .error e ⟨s.engine, { s.session with arbiter }⟩ := by
      rw [derive, h]
    refine (leads_error run).mpr ⟨records.congr rfl rfl, excused_of_fair ?_⟩
    exact Op.plainly_resultSort op args e (SortArbiter.derive_error h).1

theorem spares_reconcile (records : s.session.Records t) (op : Op) (derived : Option LogicSort)
    (reported : LogicSort) : Spares t (reconcile op derived reported) s := by
  refine spares_update records ?_ ?_
  · split <;> rfl
  · split <;> rfl

theorem spares_makeTerm (records : s.session.Records t) (op : Op) (args : List Term) :
    Spares t (makeTerm op args) s := by
  refine (spares_natives records args).bind fun ns _ records => ?_
  refine (spares_derive records op _).bind fun derived _ records => ?_
  refine (spares_call records (.makeTerm op ns) rfl).bind fun n _ records => ?_
  refine (spares_call records (.sortOf n) rfl).bind fun reported _ records => ?_
  refine (spares_reconcile records op derived reported).bind fun sort _ records => ?_
  exact spares_intern records _ _ _ _ _

theorem spares_makeConstArray (records : s.session.Records t) (fill : Term) (sort : LogicSort) :
    Spares t (makeConstArray fill sort) s := by
  refine (spares_ofExcept records (LogicSort.plainly_expectArray sort)).bind fun _ _ records => ?_
  refine (spares_ofExcept records (LogicSort.plainly_expectSame _ _)).bind fun _ _ records => ?_
  refine (spares_native records fill).bind fun nf _ records => ?_
  refine (spares_nativeSort sort records).bind fun made _ records => ?_
  refine (spares_call records (.makeConstArray nf made) rfl).bind fun n _ records => ?_
  exact spares_intern records _ _ _ _ _

theorem spares_assertFormula (records : s.session.Records t) (u : Term) :
    Spares t (assertFormula u) s := by
  refine (spares_ofExcept records (LogicSort.plainly_expectBool _)).bind fun _ _ records => ?_
  refine (spares_native records u).bind fun n _ records => ?_
  exact spares_onEngine records fun _ _ _ failed => ⟨.assertFormula n, bind_error failed⟩

theorem spares_checkSatAssuming (records : s.session.Records t) (ts : List Term) :
    Spares t (checkSatAssuming ts) s := by
  refine (spares_ofExcept records (.forM plainly_expectBooleanLiteral ts)).bind
    fun _ _ records => ?_
  refine (spares_natives records ts).bind fun ns _ records => ?_
  refine (spares_update records rfl rfl).bind fun _ _ records => ?_
  exact spares_call records (.checkSatAssuming ns) rfl

theorem spares_wrapValue (records : s.session.Records t) (n : T) (sort : LogicSort) :
    Spares t (wrapValue n sort) s :=
  spares_get (spares_intern records _ _ _ _ _)

theorem spares_wrapBase (records : s.session.Records t) (base : Option T) (element : LogicSort) :
    Spares t (wrapBase base element) s := by
  cases base with
  | none => exact spares_pure records none
  | some b =>
    refine (spares_call records (.sortOf b) rfl).bind fun sort _ records => ?_
    dsimp only
    split
    · exact spares_throw records trivial
    · exact (spares_wrapValue records b element).bind fun _ _ records => spares_pure records _

theorem spares_wrapCells (index element : LogicSort) (cells : List (T × T)) {s : Solver σ S T}
    (records : s.session.Records t) :
    Spares t (cells.mapM fun (i, x) => do
      let i ← wrapValue i index
      return (i, ← wrapValue x element)) s := by
  induction cells generalizing s with
  | nil => exact spares_pure records []
  | cons cell cells ih =>
    have first : Spares t (do
        let i ← wrapValue cell.1 index
        return (i, ← wrapValue cell.2 element)) s :=
      (spares_wrapValue records cell.1 index).bind fun _ _ records =>
        (spares_wrapValue records cell.2 element).bind fun _ _ records => spares_pure records _
    rw [List.mapM_cons]
    exact first.bind fun _ _ records =>
      Spares.bind (ih records) fun _ _ records => spares_pure records _

theorem spares_getArrayValues (records : s.session.Records t) (u : Term) :
    Spares t (getArrayValues u) s := by
  refine (spares_ofExcept records (LogicSort.plainly_expectArray _)).bind fun sorts _ records => ?_
  refine (spares_native records u).bind fun n _ records => ?_
  refine (spares_call records (.getArrayValues n) rfl).bind fun raw _ records => ?_
  refine (spares_wrapBase records raw.base sorts.2).bind fun base _ records => ?_
  exact (spares_wrapCells sorts.1 sorts.2 raw.cells records).bind fun _ _ records =>
    spares_pure records _

theorem spares_storeAll (cells : List (Term × Term)) (array : Term) {s : Solver σ S T}
    (records : s.session.Records t) :
    Spares t (cells.foldlM (fun array (i, x) => makeTerm PrimOp.store [array, i, x]) array) s := by
  induction cells generalizing array s with
  | nil => exact spares_pure records array
  | cons cell cells ih =>
    rw [List.foldlM_cons]
    exact (spares_makeTerm records _ _).bind fun array' _ records => ih array' records

theorem spares_getValue (records : s.session.Records t) (u : Term) : Spares t (getValue u) s := by
  unfold getValue
  split
  · refine (spares_getArrayValues records u).bind fun m _ records => ?_
    split
    · exact spares_get (spares_throw records trivial)
    · exact (spares_makeConstArray records _ u.sort).bind fun start _ records =>
        spares_storeAll m.cells start records
  · refine (spares_native records u).bind fun n _ records => ?_
    exact (spares_call records (.getValue n) rfl).bind fun v _ records =>
      spares_wrapValue records v u.sort

/-- No operation that hands terms to the engine finds fault with a term that is recorded. -/
theorem spares_of_records {q : Request} (hands : q.HandsOver) (records : s.session.Records t) :
    Spares t q.perform s := by
  cases q with
  | command c =>
    cases c with
    | makeTerm op args => exact (spares_makeTerm records op args).map _
    | makeConstArray fill sort => exact (spares_makeConstArray records fill sort).map _
    | assertFormula u =>
      exact (spares_assertFormula records u).bind fun _ _ records => spares_pure records _
    | checkSatAssuming ts => exact (spares_checkSatAssuming records ts).map _
    | getValue u => exact (spares_getValue records u).map _
    | getArrayValues u => exact (spares_getArrayValues records u).map _
    | _ => exact hands.elim
  | _ => exact hands.elim

end Recorded

end Solver

end FormulaGraph

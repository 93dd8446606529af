import FormulaGraph.Proofs.Engine.Recall
import FormulaGraph.Proofs.Solver.Assertions
import FormulaGraph.Proofs.Solver.Conduct

/-!
Cores on an engine of which any call may fail. What a core is made of is kept in two places: the
engine recalls the assumptions of its last check, the session knows which terms they stand for. A
check under assumptions and a reset of the assertions change the session before the engine is
called; where that call then fails, the two no longer go together. As long as this has not happened
a core can be told.
-/

namespace FormulaGraph

namespace Request

/-- Of which assumptions a core is made from now on, if the request settles that by its answer. -/
def recalled? : Request → Answer LogicSort Term → Option (List Term)
  | command c, answer => c.recalled? answer
  | _, _ => none

/-- What can still be told of a core once the request has failed, if these assumptions could before.
A check under assumptions and a reset of the assertions have given them up by then. -/
def doubted : Request → Option (List Term) → Option (List Term)
  | command (.checkSatAssuming _), some (_ :: _) | command .resetAssertions, some (_ :: _) => none
  | _, told => told

theorem recalled?_of_keepsModel {q : Request} (keeps : q.KeepsModel)
    (answer : Answer LogicSort Term) :
    q.recalled? answer = none := by
  cases q with
  | command c =>
    refine c.recalled?_of_keepsModel ?_ answer
    cases c with
    | checkSat | checkSatAssuming | checkSatInterruptible | reset | resetAssertions => exact keeps
    | _ => trivial
  | _ => rfl

theorem doubted_eq (q : Request) (told : Option (List Term)) :
    q.doubted told = told ∨ q.doubted told = none := by
  unfold doubted
  split
  · exact .inr rfl
  · exact .inr rfl
  · exact .inl rfl

end Request

namespace Solver

open FormulaGraph.Action

variable {σ S T α : Type} [BEq T] [Hashable T] [Engine σ S T] {start : σ → Prop}
    {s s' : Solver σ S T}
  {ns : List T} {told : Option (List Term)} {assumptions : List Term} {q : Request} {x : Error}
  {answer : Answer LogicSort Term}

/-- A course of requests, answered or failed, along with the assumptions of which a core is made, if
that can be told. A request that is refused without being passed on leaves the solver as it is, and
need not be counted. -/
inductive Told (start : σ → Prop) : Solver σ S T → Option (List Term) → Prop
  | new {e : σ} (starts : start e) (supply : Supply) (evicts : Eviction := .never) :
      Told start (Solver.new e supply evicts) (some [])
  | answered {s s' : Solver σ S T} {told : Option (List Term)}
      (before : Told start s told) (q : Request)
      {answer : Answer LogicSort Term} (done : q.perform s = .ok answer s') :
      Told start s' ((q.recalled? answer).or told)
  | failed {s s' : Solver σ S T} {told : Option (List Term)}
      (before : Told start s told) (q : Request)
      {x : Error} (done : q.perform s = .error x s') : Told start s' (q.doubted told)
  | aside {s s' : Solver σ S T} {told : Option (List Term)} (before : Told start s told)
      (step : Aside s s') :
      Told start s' told

theorem Run.exists_told {issued : List Term} (run : Run start s issued) :
    ∃ told, Told start s told := by
  induction run with
  | new starts supply evicts => exact ⟨_, .new starts supply evicts⟩
  | next _ step ih =>
    obtain ⟨told, before⟩ := ih
    cases step with
    | answered q _ done => exact ⟨_, before.answered q done⟩
    | failed q _ done => exact ⟨_, before.failed q done⟩
    | reported => exact ⟨_, before.aside .reported⟩
    | elsewhere nextTerm nextSession => exact ⟨_, before.aside (.elsewhere nextTerm nextSession)⟩

/-- Each term that the engine recalls stands for one of the assumptions of which a core is made. -/
def Backed (start : σ → Prop) (s : Solver σ S T) (told : Option (List Term)) : Prop :=
  ∃ ns, Engine.Recalls start s.engine ns ∧
    ∀ assumptions, told = some assumptions → ∀ n ∈ ns, ∃ t ∈ assumptions,
      s.session.assumptions[n]? = some t

theorem backed_of_nil (recalls : Engine.Recalls start s.engine []) : Backed start s told :=
  ⟨[], recalls, fun _ _ _ none => absurd none List.not_mem_nil⟩

theorem Backed.doubted (backed : Backed start s told) (q : Request) :
    Backed start s (q.doubted told) := by
  obtain ⟨ns, recalls, stands⟩ := backed
  obtain same | none := q.doubted_eq told
  · rw [same]
    exact ⟨ns, recalls, stands⟩
  · rw [none]
    exact ⟨ns, recalls, fun _ same => by cases same⟩

/-- What the engine recalls, and what stands for it, is as it was. -/
structure KeepsRecall (start : σ → Prop) (s s' : Solver σ S T) : Prop where
  recalls : ∀ ns, Engine.Recalls start s.engine ns → Engine.Recalls start s'.engine ns
  assumptions : s'.session.assumptions = s.session.assumptions

instance : IsPreorder (Solver σ S T) (KeepsRecall start) where
  refl _ := ⟨fun _ recalls => recalls, rfl⟩
  trans _ _ _ first second :=
    ⟨fun ns recalls => second.recalls ns (first.recalls ns recalls),
      second.assumptions.trans first.assumptions⟩

theorem Backed.keepsRecall (backed : Backed start s told) (same : KeepsRecall start s s') :
    Backed start s' told := by
  obtain ⟨ns, recalls, stands⟩ := backed
  refine ⟨ns, same.recalls ns recalls, ?_⟩
  rw [same.assumptions]
  exact stands

section Calls

variable {act : Action σ α} {a : α} {c : Command S T} {given : Answer S T}

theorem recalls_onEngine (recalls : Engine.Recalls start s.engine ns)
    (performs : ∀ e, act s.engine = .ok a e → Engine.perform c s.engine = .ok given e)
    (done : onEngine act s = .ok a s') :
    Engine.Recalls start s'.engine ((c.recalled? given).getD ns) ∧
      s'.session.assumptions = s.session.assumptions := by
  obtain ⟨e, notices, called, rfl⟩ := of_onEngine_ok done
  exact ⟨(recalls.answered c (performs e called)).taken, rfl⟩

theorem keepsRecall_onEngine (retentive : Engine.Retentive start)
    (recalls : Engine.Recalls start s.engine ns)
    (performs : ∀ e, act s.engine = .error x e → Engine.perform c s.engine = .error x e)
    (failed : onEngine act s = .error x s') : KeepsRecall start s s' := by
  obtain ⟨e, notices, called, rfl⟩ := of_onEngine_error failed
  have same : e = s.engine := retentive.fails recalls (performs e called)
  rw [same]
  exact ⟨fun _ recalls => recalls.taken, rfl⟩

end Calls

section Spared

theorem keepsRecall_spared (retentive : Engine.Retentive start) {act : Action σ α}
    (spares : Engine.Spares act) :
    Abides (KeepsRecall start) (onEngine act : Action (Solver σ S T) α) := by
  intro s
  cases h : onEngine act s with
  | ok a s' =>
    obtain ⟨e, notices, called, rfl⟩ := of_onEngine_ok h
    rw [finalState_ok h]
    exact ⟨fun _ recalls => (finalState_ok called ▸ retentive.spared spares recalls).taken, rfl⟩
  | error x s' =>
    obtain ⟨e, notices, called, rfl⟩ := of_onEngine_error h
    rw [finalState_error h]
    exact ⟨fun _ recalls => (finalState_error called ▸ retentive.spared spares recalls).taken, rfl⟩

theorem keepsRecall_follows (retentive : Engine.Retentive start) :
    FollowsUses (KeepsRecall start : Solver σ S T → Solver σ S T → Prop) fun _ => True where
  refl := refl
  trans := IsTrans.trans _ _ _
  undeclared _ := trivial
  abstract _ := trivial
  first {s sort command make} use := by
    have keeps : (command.mapSorts Prod.snd).KeepsModel := by
      have makes := use.makes
      cases command with
      | checkSat | checkSatAssuming | checkSatInterruptible | reset | resetAssertions => cases makes
      | _ => trivial
    have made : Abides (KeepsRecall start) (useFirst sort make : Action (Solver σ S T) S) :=
      (keepsRecall_spared retentive (Engine.spares_answered _ keeps use.performs)).bind fun made =>
        Abides.bind (fun _ => ⟨fun _ recalls => recalls, rfl⟩) fun _ => abides_pure made
    exact leads_iff_finalState.mpr (made s)

theorem keepsRecall_permissive (retentive : Engine.Retentive start) :
    Permissive (KeepsRecall start : Solver σ S T → Solver σ S T → Prop) where
  called := keepsRecall_spared retentive
  nativeSort sort s := (leads_nativeSort (keepsRecall_follows retentive) sort s).finalState
  changed _ engine assumptions _ := ⟨fun _ recalls => engine ▸ recalls, assumptions⟩

theorem keepsRecall_perform (retentive : Engine.Retentive start) (keeps : q.KeepsModel) :
    Abides (KeepsRecall start) (q.perform : Action (Solver σ S T) (Answer LogicSort Term)) :=
  have := keepsRecall_permissive (S := S) (T := T) retentive
  abides_perform keeps

end Spared

theorem mem_of_inserted [EquivBEq T] [LawfulHashable T] {pairs : List (T × Term)}
    {known : Std.HashMap T Term}
    {n : T} (some_ : (∃ t, (n, t) ∈ pairs) ∨ n ∈ known) :
    n ∈ pairs.foldl (fun known (n, t) => known.insert n t) known := by
  induction pairs generalizing known with
  | nil =>
    obtain ⟨t, ht⟩ | present := some_
    · exact absurd ht List.not_mem_nil
    · exact present
  | cons pair pairs ih =>
    refine ih ?_
    obtain ⟨t, ht⟩ | present := some_
    · obtain rfl | rest := List.mem_cons.mp ht
      · exact .inr Std.HashMap.mem_insert_self
      · exact .inl ⟨t, rest⟩
    · exact .inr (Std.HashMap.mem_insert.mpr (.inr present))

theorem remembered [EquivBEq T] [LawfulHashable T] {ns : List T} {ts : List Term}
    (lengths : ns.length = ts.length) (session : Session S T) :
    ∀ n ∈ ns, ∃ t ∈ ts, (rememberAssumptions ns ts session).assumptions[n]? = some t := by
  intro n hn
  have paired : n ∈ (ns.zip ts).map Prod.fst := by rwa [List.map_fst_zip (Nat.le_of_eq lengths)]
  obtain ⟨pair, hp, rfl⟩ := List.mem_map.mp paired
  have present : pair.1 ∈ (rememberAssumptions ns ts session).assumptions :=
    mem_of_inserted (.inl ⟨pair.2, hp⟩)
  obtain ⟨t, found⟩ := Option.isSome_iff_exists.mp (Std.HashMap.isSome_getElem?_iff_mem.mpr present)
  obtain none | ⟨m, hm⟩ := mem_of_assumption found
  · simp at none
  · exact ⟨t, (List.of_mem_zip hm).2, found⟩

/-- What a request settles by its answer is backed from then on. -/
theorem Backed.answered [EquivBEq T] [LawfulHashable T] (retentive : Engine.Retentive start)
    (backed : Backed start s told) (done : q.perform s = .ok answer s') :
    Backed start s' ((q.recalled? answer).or told) := by
  by_cases keeps : q.KeepsModel
  · rw [Request.recalled?_of_keepsModel keeps, Option.none_or]
    exact backed.keepsRecall (finalState_ok done ▸ keepsRecall_perform retentive keeps s)
  · obtain ⟨ns, recalls, -⟩ := backed
    cases q with
    | command c =>
      cases c with
      | checkSat =>
        obtain ⟨v, called, rfl⟩ := of_map_ok done
        exact backed_of_nil (recalls_onEngine (c := .checkSat) recalls (fun _ => map_ok) called).1
      | checkSatInterruptible token =>
        obtain ⟨v, called, rfl⟩ := of_map_ok done
        exact backed_of_nil
          (recalls_onEngine (c := .checkSatInterruptible token) recalls (fun _ => map_ok) called).1
      | checkSatAssuming assumptions =>
        obtain ⟨v, checked, rfl⟩ := of_map_ok done
        obtain ⟨e, refused⟩ | ⟨ms, -, assumed, passed⟩ := checkSatAssuming_cases assumptions s
        · cases refused.symm.trans checked
        · have called := passed.symm.trans checked
          obtain ⟨later, kept⟩ :=
            recalls_onEngine (s := ⟨s.engine, rememberAssumptions ms assumptions s.session⟩)
              (c := .checkSatAssuming ms) recalls (fun _ => map_ok) called
          cases v with
          | unsat =>
            refine ⟨ms, later, fun _ same => ?_⟩
            cases same
            rw [kept]
            exact remembered assumed.length_eq.symm s.session
          | sat | unknown => exact backed_of_nil later
      | reset =>
        obtain ⟨_, s₁, ended, rest⟩ := of_bind_ok done
        obtain ⟨_, s₂, called, renewed⟩ := of_bind_ok ended
        cases rest
        cases renewed
        exact backed_of_nil (recalls_onEngine (c := .reset) recalls (fun _ => bind_ok) called).1
      | resetAssertions =>
        obtain ⟨_, s₁, called, rest⟩ := of_bind_ok done
        cases rest
        exact backed_of_nil
          (recalls_onEngine (s := ⟨s.engine, { s.session with assumptions := {} }⟩)
            (c := .resetAssertions) recalls (fun _ => bind_ok) called).1
      | _ => exact absurd trivial keeps
    | _ => exact absurd trivial keeps

/-- Where the assumptions were given up there is nothing to stand for what the engine recalls, if it
recalls any. -/
theorem Backed.doubt (backed : Backed start s told)
    (recalls : ∀ ns, Engine.Recalls start s.engine ns → Engine.Recalls start s'.engine ns)
    (doubts : ∀ t ts, q.doubted (some (t :: ts)) = none) : Backed start s' (q.doubted told) := by
  obtain ⟨ns, known, stands⟩ := backed
  have lost : Backed start s' none := ⟨ns, recalls ns known, fun _ same => by cases same⟩
  cases told with
  | none =>
    rw [(q.doubted_eq none).elim id id]
    exact lost
  | some assumptions =>
    cases assumptions with
    | nil =>
      have none_ : ns = [] := List.eq_nil_iff_forall_not_mem.mpr fun n hn =>
        have ⟨_, ht, _⟩ := stands [] rfl n hn
        List.not_mem_nil ht
      rw [none_] at known
      exact backed_of_nil (recalls [] known)
    | cons t ts =>
      rw [doubts]
      exact lost

/-- A request that fails settles nothing. What stands for the assumptions stays, unless it was given
up before. -/
theorem Backed.failed (retentive : Engine.Retentive start) (backed : Backed start s told)
    (failed : q.perform s = .error x s') : Backed start s' (q.doubted told) := by
  have ⟨ns, recalls, _⟩ := backed
  have same (kept : KeepsRecall start s s') : Backed start s' (q.doubted told) :=
    (backed.keepsRecall kept).doubted q
  by_cases keeps : q.KeepsModel
  · exact same (finalState_error failed ▸ keepsRecall_perform retentive keeps s)
  · cases q with
    | command c =>
      cases c with
      | checkSat =>
        exact same (keepsRecall_onEngine (c := .checkSat) retentive recalls (fun _ => map_error)
          (of_map_error failed))
      | checkSatInterruptible token =>
        exact same (keepsRecall_onEngine (c := .checkSatInterruptible token) retentive recalls
          (fun _ => map_error)
          (of_map_error failed))
      | checkSatAssuming assumptions =>
        have stopped := of_map_error failed
        obtain ⟨e, refused⟩ | ⟨ms, -, -, passed⟩ := checkSatAssuming_cases assumptions s
        · cases refused.symm.trans stopped
          exact same (refl s)
        · exact backed.doubt
            (keepsRecall_onEngine (s := ⟨s.engine, rememberAssumptions ms assumptions s.session⟩)
              (c := .checkSatAssuming ms) retentive recalls (fun _ => map_error)
              (passed.symm.trans stopped)).recalls
            fun _ _ => rfl
      | reset =>
        obtain stopped | ⟨_, _, _, done⟩ := of_bind_error failed
        · obtain called | ⟨_, _, _, renewed⟩ := of_bind_error stopped
          · exact same (keepsRecall_onEngine (c := .reset) retentive recalls
              (fun _ => bind_error) called)
          · cases renewed
        · cases done
      | resetAssertions =>
        obtain stopped | ⟨_, _, _, done⟩ := of_bind_error failed
        · exact backed.doubt
            (keepsRecall_onEngine (s := ⟨s.engine, { s.session with assumptions := {} }⟩)
              (c := .resetAssertions) retentive recalls (fun _ => bind_error) stopped).recalls
              fun _ _ => rfl
        · cases done
      | _ => exact absurd trivial keeps
    | _ => exact absurd trivial keeps

theorem Told.backed [EquivBEq T] [LawfulHashable T] (retentive : Engine.Retentive start)
    (course : Told start s told) : Backed start s told := by
  induction course with
  | new starts supply => exact backed_of_nil (.fresh starts)
  | answered _ q done ih => exact ih.answered retentive done
  | failed _ q done ih => exact ih.failed retentive done
  | aside _ step ih =>
    cases step with
    | reported => exact ih
    | elsewhere => exact ih

omit [Engine σ S T] in
theorem assumptions_found (session : Session S T)
    (known : ∀ n ∈ ns, ∃ t ∈ assumptions, session.assumptions[n]? = some t)
    (describe : T → String) :
    ∃ core, ns.mapM (session.assumption describe) = .ok core ∧ core.length = ns.length ∧
      ∀ t ∈ core, t ∈ assumptions := by
  obtain ⟨core, told⟩ := mapM_succeeds fun n hn => by
    obtain ⟨t, -, found⟩ := known n hn
    exact ⟨t, show session.assumption describe n = .ok t by rw [Session.assumption, found]⟩
  have each := forall₂_of_mapM told
  refine ⟨core, told, each.length_eq.symm, fun t ht => ?_⟩
  obtain ⟨n, hn, named⟩ := exists_of_forall₂ each ht
  obtain ⟨u, hu, found⟩ := known n hn
  rw [Session.assumption, found] at named
  cases named
  exact hu

/-- Wherever its calls fail, a core can be told if the engine gives one, and otherwise its failure
is passed on, unless a check under assumptions or a reset of the assertions has failed since. The
core is made of assumptions of the last check that was answered, if that check found no model under
them. Every run is a course of which this is told. -/
theorem core_retained [EquivBEq T] [LawfulHashable T] (retentive : Engine.Retentive start) :
    (∀ issued, Run start s issued → ∃ told, Told start s told) ∧
    ∀ assumptions, Told start s (some assumptions) →
      (∀ x s', getUnsatCore s = .error x s' →
        (Engine.getUnsatCore : Action σ (List T)) s.engine = .error x s.engine) ∧
      ∀ ns e, (Engine.getUnsatCore : Action σ (List T)) s.engine = .ok ns e →
        ∃ core s', getUnsatCore s = .ok core s' ∧ core.length = ns.length ∧
          ∀ t ∈ core, t ∈ assumptions := by
  refine ⟨fun issued run => run.exists_told, fun assumptions course => ?_⟩
  obtain ⟨ms, recalls, stands⟩ := course.backed retentive
  have answers : ∀ ns e, (Engine.getUnsatCore : Action σ (List T)) s.engine = .ok ns e →
      ∃ core s', getUnsatCore s = .ok core s' ∧ core.length = ns.length ∧
        ∀ t ∈ core, t ∈ assumptions := by
    intro ns e answered
    have known : ∀ n ∈ ns, ∃ t ∈ assumptions, s.session.assumptions[n]? = some t := fun n hn =>
      stands assumptions rfl n ((retentive.core recalls answered).subset hn)
    obtain ⟨notices, called⟩ := onEngine_of_ok answered
    obtain ⟨core, found, length, members⟩ := assumptions_found { s.session with notices } known
      (Engine.describe (Engine.takeNotices e).2)
    refine ⟨core, ⟨(Engine.takeNotices e).2, { s.session with notices }⟩, ?_, length, members⟩
    rw [getUnsatCore, bind_ok called]
    show ask (fun session => ns.mapM (session.assumption _)) _ = _
    rw [ask, found]
  refine ⟨fun x s' failed => ?_, answers⟩
  cases called : (Engine.getUnsatCore : Action σ (List T)) s.engine with
  | ok ns e =>
    obtain ⟨core, s'', told, -⟩ := answers ns e called
    cases told.symm.trans failed
  | error y e =>
    have same : e = s.engine := retentive.fails (c := .getUnsatCore) recalls (map_error called)
    obtain stopped | ⟨ns, s₁, answered, -⟩ := of_bind_error failed
    · obtain ⟨_, _, called', -⟩ := of_onEngine_error stopped
      cases called.symm.trans called'
      rw [same]
    · obtain ⟨_, _, called', -⟩ := of_onEngine_ok answered
      cases called.symm.trans called'

/-- A session over the reluctant engine, which recalls that its term was assumed. -/
abbrev recalling (session : Session Unit Unit) : Solver Reluctant Unit Unit := ⟨⟨[()]⟩, session⟩

theorem reluctant_check :
    ∃ (session : Session Unit Unit) (x : Term), Run Reluctant.Fresh (recalling session) [x] ∧
    Told Reluctant.Fresh (recalling session) (some [x]) ∧ session.assumptions[()]? = some x := by
  let s₀ : Solver Reluctant Unit Unit := Solver.new {} {}
  have unasked : Reluctant.Fresh {} := rfl
  have fresh : Run Reluctant.Fresh s₀ [] := .new unasked {}
  have honoured := Contract.free_honoured (σ := Reluctant) (S := Unit) (T := Unit)
  obtain ⟨coherent, -⟩ := (fresh.mono fun _ _ => trivial).coherent honoured
  have unused : s₀.session.symbols.contains "x" = false := by simp [s₀, Solver.new]
  have unknown : s₀.session.sorts[LogicSort.bool]? = none := by simp [s₀, Solver.new]
  have sorted : Succeeds (nativeSort .bool) s₀ fun _ _ => True := by
    rw [nativeSort]
    refine succeeds_get ?_
    rw [unknown]
    exact ⟨(), _, rfl, trivial⟩
  obtain ⟨_, s₁, sorted, -⟩ := sorted
  have made : ∃ x s, makeSymbol "x" .bool s₀ = .ok x s := by
    rw [makeSymbol]
    show ∃ x s, (if s₀.session.symbols.contains "x" then _ else _ : Action _ _) s₀ = .ok x s
    rw [unused, if_neg Bool.false_ne_true, bind_ok sorted]
    exact ⟨_, _, rfl⟩
  obtain ⟨x, s, made⟩ := made
  obtain ⟨kept, has, ⟨op, sort, kind, children⟩, -⟩ :=
    (keeps_symbol honoured coherent "x" .bool).answer made
  have lasts := kept.extension.number
  have number : x.session = s.session.number := kept.coherent.canonical.numbered x has
  obtain ⟨n, native⟩ := kept.coherent.native has
  have done : (Request.command (.makeSymbol "x" .bool)).perform s₀ = .ok (.term x) s := map_ok made
  have symbol : x.isSymbol = true := by rw [Term.isSymbol, Term.symbolName?, kind]; rfl
  have truth : LogicSort.bool.isBool = true := rfl
  have literal : expectBooleanLiteral x = .ok () := by
    simp [expectBooleanLiteral, children, sort, symbol, truth]
  have literals : [x].forM expectBooleanLiteral = .ok () := by
    rw [List.forM, literal]
    rfl
  have assumed : List.Forall₂ (fun t n => s.session.native t = .ok n) [x] [()] :=
    .cons (Session.native_of_has number native) .nil
  let after := rememberAssumptions [()] [x] s.session
  have checked : (Request.command (.checkSatAssuming [x])).perform s =
      .ok (.verdict .unsat) (recalling after) :=
    map_ok (checkSatAssuming_of_literals literals assumed)
  obtain ⟨t, ht, found⟩ := remembered assumed.length_eq.symm s.session () List.mem_cons_self
  refine ⟨after, x, ?_, ?_, by rw [found, List.mem_singleton.mp ht]⟩
  · have run : Run Reluctant.Fresh s [x] :=
      fresh.answer_term (.command (.makeSymbol "x" .bool))
        (fun _ hu => absurd hu List.not_mem_nil) rfl made lasts
    have longer :=
      run.next (.answered (.command (.checkSatAssuming [x]))
        (fun u hu a ha _ => ⟨u, hu, ha⟩) checked)
    have same : (recalling after).session.number = s.session.number := rfl
    rw [stillIssued, if_pos same] at longer
    exact longer
  · have course : Told Reluctant.Fresh s₀ (some []) := .new unasked {}
    exact (course.answered (.command (.makeSymbol "x" .bool)) done).answered _ checked

theorem Run.recalling_failed {session session' : Session Unit Unit} {x : Term} {e : Error}
    (run : Run Reluctant.Fresh (recalling session) [x]) (none : q.terms = [])
    (done : q.perform (recalling session) = .error e (recalling session'))
    (lasts : session'.number = session.number) : Run Reluctant.Fresh (recalling session') [x] := by
  have available : ∀ t ∈ q.terms, (recalling session).Available [x] t := by
    rw [none]
    exact fun _ ht => absurd ht List.not_mem_nil
  have longer := run.next (.failed q available done)
  rwa [stillIssued, if_pos lasts] at longer

/-- A pop that is refused after the check: the core can still be told. -/
theorem core_retained_refused : ∃ (s s' : Solver Reluctant Unit Unit) (x : Term) (e : Error),
    Engine.Retentive Reluctant.Fresh ∧ Told Reluctant.Fresh s (some [x]) ∧
      (Request.command (.pop 1)).perform s = .error e s' ∧ Run Reluctant.Fresh s' [x] ∧
        Told Reluctant.Fresh s' (some [x]) ∧
          ∃ core s'', getUnsatCore s' = .ok core s'' ∧ core = [x] := by
  obtain ⟨session, x, run, course, -⟩ := reluctant_check
  have refused : (Request.command (.pop 1)).perform (recalling session) =
      .error (.engine "reluctant" "refused") (recalling session) := rfl
  have later : Told Reluctant.Fresh (recalling session) (some [x]) :=
    course.failed (.command (.pop 1)) refused
  obtain ⟨-, answers⟩ := (core_retained Reluctant.retentive).2 _ later
  obtain ⟨core, s'', told, length, members⟩ := answers _ _ rfl
  refine ⟨_, _, x, _, Reluctant.retentive, course, refused,
    run.recalling_failed rfl refused rfl, later, core, s'', told, ?_⟩
  obtain ⟨t, rfl⟩ := List.length_eq_one_iff.mp length
  rw [List.mem_singleton.mp (members t List.mem_cons_self)]

theorem reluctant_getUnsatCore (session : Session Unit Unit) :
    getUnsatCore (recalling session) =
      ask (fun session => [()].mapM (session.assumption fun _ => "term")) (recalling session) := rfl

theorem getUnsatCore_of_missing {session : Session Unit Unit}
    (missing : session.assumptions[()]? = none) :
    getUnsatCore (recalling session) =
      .error (.internal (.strangeCoreElement "term")) (recalling session) := by
  rw [reluctant_getUnsatCore, ask, List.mapM_cons, Session.assumption, missing]
  rfl

/-- A core can be told, but no longer once a check under other assumptions or a reset of the
assertions is refused, though the engine has it still. -/
theorem core_lost :
    ∃ (s : Solver Reluctant Unit Unit) (x : Term), Engine.Retentive Reluctant.Fresh ∧
    Run Reluctant.Fresh s [x] ∧ getUnsatCore s = .ok [x] s ∧
    ∀ q ∈ [Request.command (.checkSatAssuming []), Request.command .resetAssertions], ∃ e s',
      q.perform s = .error e s' ∧ Run Reluctant.Fresh s' [x] ∧
        (Engine.getUnsatCore : Action Reluctant (List Unit)) s'.engine = .ok [()] s'.engine ∧
          getUnsatCore s' = .error (.internal (.strangeCoreElement "term")) s' := by
  obtain ⟨session, x, run, -, stands⟩ := reluctant_check
  have gives : getUnsatCore (recalling session) = .ok [x] (recalling session) := by
    rw [reluctant_getUnsatCore, ask, List.mapM_cons, Session.assumption, stands]
    rfl
  refine ⟨recalling session, x, Reluctant.retentive, run, gives, fun q asked => ?_⟩
  obtain rfl | rfl : q = .command (.checkSatAssuming []) ∨ q = .command .resetAssertions := by
    simpa using asked
  · have done : (Request.command (.checkSatAssuming [])).perform (recalling session) =
        .error (.engine "reluctant" "refused")
          (recalling (rememberAssumptions [] [] session)) := rfl
    refine ⟨_, _, done, run.recalling_failed rfl done rfl, rfl, getUnsatCore_of_missing ?_⟩
    simp [rememberAssumptions, Session.note]
  · have done : (Request.command .resetAssertions).perform (recalling session) =
        .error (.engine "reluctant" "refused") (recalling { session with assumptions := {} }) := rfl
    refine ⟨_, _, done, run.recalling_failed rfl done rfl, rfl, getUnsatCore_of_missing ?_⟩
    simp

end Solver

end FormulaGraph

import FormulaGraph.Proofs.Enumeration.Cores
import FormulaGraph.Proofs.Enumeration.Totality
import FormulaGraph.Proofs.Solver.Transfer
import FormulaGraph.Proofs.Solver.Verdicts

/-!
Unsatisfiable cores of a solver over the enumerating engine. The engine keeps a core of nodes, the
session a map from nodes to assumptions, and different operations change the one and the other; yet
each node of the core is always told which assumption it stands for.
-/

namespace FormulaGraph

section Lists

variable {α β : Type} {R : α → β → Prop} {as : List α} {bs cs : List β}

theorem exists_sublist_of_forall₂ (related : List.Forall₂ R as bs) (fewer : cs.Sublist bs) :
    ∃ us : List α, us.Sublist as ∧ List.Forall₂ R us cs := by
  induction fewer generalizing as with
  | slnil =>
    cases related
    exact ⟨[], .refl [], .nil⟩
  | cons b _ ih =>
    cases related with
    | cons _ rest =>
      obtain ⟨us, some_, related⟩ := ih rest
      exact ⟨us, some_.cons _, related⟩
  | cons_cons b _ ih =>
    cases related with
    | cons first rest =>
      obtain ⟨us, some_, related⟩ := ih rest
      exact ⟨_ :: us, some_.cons_cons _, .cons first related⟩

theorem forall₂_eraseIdx (related : List.Forall₂ R as bs) (i : Nat) :
    List.Forall₂ R (as.eraseIdx i) (bs.eraseIdx i) := by
  rw [List.eraseIdx_eq_take_drop_succ, List.eraseIdx_eq_take_drop_succ]
  exact List.rel_append (List.forall₂_take i related) (List.forall₂_drop (i + 1) related)

theorem getElem?_of_inserted {κ ν : Type} [BEq κ] [LawfulBEq κ] [Hashable κ] [LawfulHashable κ]
    {pairs : List (κ × ν)} {known : Std.HashMap κ ν} {k : κ} {v : ν}
    (only : ∀ u, (k, u) ∈ pairs → u = v) (some_ : (k, v) ∈ pairs ∨ known[k]? = some v) :
    (pairs.foldl (fun known (n, t) => known.insert n t) known)[k]? = some v := by
  induction pairs generalizing known with
  | nil => exact some_.resolve_left List.not_mem_nil
  | cons pair pairs ih =>
    refine ih (fun u hu => only u (List.mem_cons_of_mem _ hu)) ?_
    rw [Std.HashMap.getElem?_insert]
    by_cases same : pair.1 = k
    · have value : pair.2 = v := only pair.2 (same ▸ List.mem_cons_self)
      exact .inr (by simp [same, value])
    · refine some_.imp (fun inserted => ?_) fun found => by simp [same, found]
      exact (List.mem_cons.mp inserted).resolve_left fun first =>
        same (congrArg Prod.fst first).symm

end Lists

/-- An engine of which nothing has been asked yet, and whose answers are not faulty. -/
structure Enumerator.Honest (e : Enumerator) : Prop extends Enumerator.Unused e where
  core : e.core = []
  faulty : e.faulty = false

theorem Enumerator.honest_new (name : String) : (Enumerator.new name).Honest :=
  ⟨Enumerator.unused_new name, rfl, rfl⟩

namespace Solver

open FormulaGraph.Action

variable {s s' : Solver Enumerator LogicSort Handle} {t : Term} {n : Handle} {ns : List Handle}
  {assumptions core : List Term} {issued issued' : List Term}
    {scopes : List (List Term)} {q : Request}

/-- The engine is not faulty, and its core stands for these assumptions. -/
structure Cored (s : Solver Enumerator LogicSort Handle) (core : List Term) : Prop where
  honest : s.engine.faulty = false
  told : List.Forall₂ (fun n t => s.session.assumptions[n]? = some t) s.engine.core core

theorem getUnsatCore_of_cored (cored : Cored s core) : getUnsatCore s = .ok core s := by
  obtain ⟨engine, session⟩ := s
  have kept : Enumerator.getUnsatCore engine = .ok engine.core engine := by
    rw [Enumerator.getUnsatCore]
    show (if engine.faulty then _ else _ : Action Enumerator (List Handle)) engine = _
    rw [cored.honest]
    rfl
  have asked : onEngine (Engine.getUnsatCore (S := LogicSort) (T := Handle)) ⟨engine, session⟩ =
      .ok engine.core ⟨engine, session⟩ := onEngine_ok kept session
  have found : ∀ describe, engine.core.mapM (session.assumption describe) =
    .ok core := fun describe => by
    refine mapM_of_forall₂ (cored.told.imp fun n t known => ?_)
    rw [Session.assumption, known]
  rw [getUnsatCore, bind_ok asked]
  show ask (fun session => engine.core.mapM (session.assumption _)) ⟨engine, session⟩ = _
  rw [ask, found]

theorem Cored.retains (cored : Cored s core) (retains : Retains s s') : Cored s' core := by
  obtain ⟨honest, told⟩ := cored
  refine ⟨retains.faulty.trans honest, ?_⟩
  rw [retains.core, retains.assumptions]
  exact told

theorem cored_nil (honest : s.engine.faulty = false) (none : s.engine.core = []) : Cored s [] :=
  ⟨honest, none ▸ .nil⟩

theorem assumptions_remembered (coherent : s.Coherent Enumerator.contract)
    (genuine : ∀ t ∈ assumptions, s.session.Genuine t)
    (assumed : List.Forall₂ (fun t n => s.session.native t = .ok n) assumptions ns) :
    List.Forall₂ (fun n t => s.session.native t = .ok n ∧
      (rememberAssumptions ns assumptions s.session).assumptions[n]? = some t) ns assumptions := by
  obtain ⟨lengths, zipped⟩ := List.forall₂_iff_zip.mp assumed.flip
  refine List.forall₂_iff_zip.mpr ⟨lengths, fun {n t} pair => ⟨zipped pair, ?_⟩⟩
  refine getElem?_of_inserted (fun u other => ?_) (.inl pair)
  obtain ⟨number, recorded⟩ := Session.native_ok (zipped pair)
  obtain ⟨number', recorded'⟩ := Session.native_ok (zipped other)
  exact coherent.eq_of_native ((genuine u (List.of_mem_zip other).2).has number')
    ((genuine t (List.of_mem_zip pair).2).has number) recorded' recorded

/-- Some of the assumptions that clash with what is asserted, each of which is needed for that. -/
structure IsCore (s : Solver Enumerator LogicSort Handle) (scopes : List (List Term))
    (assumptions core : List Term) : Prop where
  sublist : core.Sublist assumptions
  clash : ∀ env, s.engine.store.Admits env →
    ∃ t ∈ scopes.flatten ++ core, s.valueUnder env t = .ok (.bool false)
  needed : ∀ i < core.length, ∃ env, s.engine.store.Admits env ∧
    ∀ t ∈ scopes.flatten ++ core.eraseIdx i, s.valueUnder env t = .ok (.bool true)

/-- A core of nodes is one of the assumptions that they are remembered for. -/
theorem Asserted.isCore (asserted : s.Asserted scopes) (coherent : s.Coherent Enumerator.contract)
    (genuine : ∀ t ∈ assumptions, s.session.Genuine t)
    (assumed : List.Forall₂ (fun t n => s.session.native t = .ok n) assumptions ns) {e : Enumerator}
    (rechecked : Enumerator.Rechecked s.engine e) (honest : e.faulty = false)
    (nodes : s.engine.IsCore ns e.core) :
    ∃ core, Cored ⟨e, rememberAssumptions ns assumptions s.session⟩ core ∧
      IsCore ⟨e, rememberAssumptions ns assumptions s.session⟩ scopes assumptions core := by
  obtain ⟨model, ms, rfl⟩ := rechecked
  obtain ⟨core, sublist, partners⟩ := exists_sublist_of_forall₂
    (assumptions_remembered coherent genuine assumed).flip nodes.sublist
  have natives : List.Forall₂ (fun t n => s.session.native t = .ok n) core ms :=
    partners.imp fun _ _ both => both.1
  have values : ∀ {t n}, s.session.native t = .ok n → ∀ env, valueUnder
      ⟨{ s.engine with model, core := ms }, rememberAssumptions ns assumptions s.session⟩ env t =
        s.engine.store.eval env n := fun {t n} asked env => by
    show (s.session.native t >>= fun n => s.engine.store.eval env n) = _
    rw [asked]
    rfl
  refine ⟨core, ⟨honest, partners.flip.imp fun _ _ both => both.2⟩, sublist, fun env admits => ?_,
    fun i bound => ?_⟩
  · obtain ⟨n, hn, fails⟩ := nodes.clash env admits
    obtain ⟨t, ht, asked⟩ := exists_of_forall₂ (asserted.formulas coherent natives) (b := n)
      (by simpa [Scopes.mem_active] using hn)
    exact ⟨t, ht, (values asked env).trans fails⟩
  · obtain ⟨env, admits, holds⟩ := nodes.needed i (natives.length_eq ▸ bound)
    refine ⟨env, admits, fun t ht => ?_⟩
    have fewer := asserted.formulas coherent (forall₂_eraseIdx natives i)
    obtain ⟨n, hn, asked⟩ := exists_of_forall₂ fewer.flip ht
    exact (values asked env).trans (holds n (by simpa [Scopes.mem_active] using hn))

/-- What a request that forgets the core of the check before it puts in its place. A check that
finds no model under assumptions leaves a core of them. Otherwise there is none, unless the request
is refused before anything is done. -/
inductive Renews (s : Solver Enumerator LogicSort Handle) (scopes : List (List Term))
    (q : Request) : Prop
  | found {assumptions core : List Term} {s' : Solver Enumerator LogicSort Handle}
      (asks : q = .command (.checkSatAssuming assumptions))
        (done : q.perform s = .ok (.verdict .unsat) s')
      (cored : Cored s' core) (isCore : IsCore s' scopes assumptions core)
  | answered {answer : Answer LogicSort Term} {s' : Solver Enumerator LogicSort Handle}
      (other : ∀ assumptions, q = .command (.checkSatAssuming assumptions) →
        answer ≠ .verdict .unsat)
      (done : q.perform s = .ok answer s') (cored : Cored s' [])
  | failed {e : Error} {s' : Solver Enumerator LogicSort Handle} (done : q.perform s = .error e s')
      (cored : Cored s' [])
  | refused {e : Error} (done : q.perform s = .error e s)

theorem Renews.answer (renews : Renews s scopes q) {answer : Answer LogicSort Term}
    (done : q.perform s = .ok answer s') :
    (∃ assumptions core, q = .command (.checkSatAssuming assumptions) ∧ answer = .verdict .unsat ∧
      Cored s' core ∧ IsCore s' scopes assumptions core) ∨
    (∀ assumptions, q = .command (.checkSatAssuming assumptions) → answer ≠ .verdict .unsat) ∧
    Cored s' [] := by
  cases renews with
  | found asks done' cored isCore =>
    cases done.symm.trans done'
    exact .inl ⟨_, _, asks, rfl, cored, isCore⟩
  | answered other done' cored =>
    cases done.symm.trans done'
    exact .inr ⟨other, cored⟩
  | failed done' | refused done' => cases done.symm.trans done'

theorem Renews.failure (renews : Renews s scopes q) {e : Error} (done : q.perform s = .error e s') :
    s' = s ∨ Cored s' [] := by
  cases renews with
  | found _ done' | answered _ done' => cases done.symm.trans done'
  | failed done' cored =>
    cases done.symm.trans done'
    exact .inr cored
  | refused done' =>
    cases done.symm.trans done'
    exact .inl rfl

theorem cored_forgotten {e : Enumerator} {session : Session LogicSort Handle}
    (honest : s.engine.faulty = false)
    (forgotten : Enumerator.Forgotten s.engine e) : Cored ⟨e, session⟩ [] := by
  obtain ⟨model, rfl⟩ := forgotten
  exact cored_nil honest rfl

theorem renews_check (honest : s.engine.faulty = false) {token : CancelToken}
    (performs : q.perform s = ((.verdict <$> onEngine (Enumerator.check [] token) :
      Action (Solver Enumerator LogicSort Handle) (Answer LogicSort Term)) s))
    (other : ∀ assumptions, q ≠ .command (.checkSatAssuming assumptions)) : Renews s scopes q := by
  have led := Enumerator.leads_check s.engine [] token
  cases checked : Enumerator.check [] token s.engine with
  | ok v e =>
    exact .answered (fun assumptions same => absurd same (other assumptions))
      (performs.trans (map_ok (onEngine_ok checked s.session)))
      (cored_forgotten honest (led.answer checked).1)
  | error x e =>
    exact .failed (performs.trans (map_error (onEngine_error checked s.session)))
      (cored_forgotten honest (led.failure checked).1)

theorem renews_checkSatAssuming (honest : s.engine.faulty = false)
    (coherent : s.Coherent Enumerator.contract) (asserted : s.Asserted scopes)
    (genuine : ∀ t ∈ assumptions, s.session.Genuine t) :
    Renews s scopes (.command (.checkSatAssuming assumptions)) := by
  have performs : (Request.command (.checkSatAssuming assumptions)).perform s =
      ((.verdict <$> checkSatAssuming assumptions :
        Action (Solver Enumerator LogicSort Handle) (Answer LogicSort Term)) s) := rfl
  obtain ⟨e, refused⟩ | ⟨ns, -, assumed, passed⟩ := checkSatAssuming_cases assumptions s
  · exact .refused (performs.trans (map_error refused))
  · obtain ⟨e, checked, rechecked, nodes⟩ | ⟨e, forgotten, ⟨v, other, checked⟩ | ⟨x, checked⟩⟩ :=
      Enumerator.core_of_checkSatAssuming s.engine ns
    · have honest' : e.faulty = false := by
        obtain ⟨model, core, rfl⟩ := rechecked
        exact honest
      obtain ⟨core, cored, isCore⟩ :=
        asserted.isCore coherent genuine assumed rechecked honest' nodes
      exact .found rfl (performs.trans (map_ok (passed.trans (onEngine_ok checked _)))) cored isCore
    · refine .answered (fun _ _ same => ?_)
        (performs.trans (map_ok (passed.trans (onEngine_ok checked _))))
          (cored_forgotten honest forgotten)
      cases same
      exact other rfl
    · exact .failed (performs.trans (map_error (passed.trans (onEngine_error checked _))))
        (cored_forgotten honest forgotten)

theorem renews_perform (honest : s.engine.faulty = false)
    (coherent : s.Coherent Enumerator.contract)
    (asserted : s.Asserted scopes) (genuine : ∀ t ∈ q.terms, s.session.Genuine t)
    (renews : ¬ q.KeepsModel) :
    Renews s scopes q := by
  cases q with
  | command c =>
    cases c with
    | checkSat => exact renews_check honest rfl nofun
    | checkSatInterruptible token => exact renews_check honest rfl nofun
    | checkSatAssuming assumptions => exact renews_checkSatAssuming honest coherent asserted genuine
    | reset => exact .answered nofun rfl (cored_nil honest rfl)
    | resetAssertions => exact .answered nofun rfl (cored_nil honest rfl)
    | _ => exact absurd trivial renews
  | _ => exact absurd trivial renews

theorem History.unused (history : History Enumerator.Honest s issued scopes) :
    History Enumerator.Unused s issued scopes :=
  history.mono fun _ honest => honest.toUnused

/-- Whatever happens to the solver, its core stands for assumptions. -/
theorem History.cored (history : History Enumerator.Honest s issued scopes) :
    ∃ core, Cored s core := by
  induction history with
  | new starts supply => exact ⟨[], cored_nil starts.faulty starts.core⟩
  | @served s s' issued issued' scopes before q ok step ih =>
    obtain ⟨core, cored⟩ := ih
    obtain ⟨coherent, known⟩ := before.unused.fresh.coherent Enumerator.contract_honoured
    obtain ⟨tidy, asserted⟩ := before.unused.asserted
    by_cases keeps : q.KeepsModel
    · have led := retains_perform tidy keeps
      cases step with
      | answered _ done => exact ⟨core, cored.retains (led.answer done).1⟩
      | failed _ done => exact ⟨core, cored.retains (led.failure done).1⟩
    · have renews : (∀ t ∈ q.terms, s.Available issued t) → Renews s scopes q := fun available =>
        renews_perform cored.honest coherent asserted
          (fun t ht => (available t ht).genuine known) keeps
      cases step with
      | answered available done =>
        obtain ⟨_, core, -, -, cored, -⟩ | ⟨-, cored⟩ := (renews available).answer done
        · exact ⟨core, cored⟩
        · exact ⟨[], cored⟩
      | failed available done =>
        obtain rfl | cored := (renews available).failure done
        · exact ⟨core, cored⟩
        · exact ⟨[], cored⟩
  | aside _ step ih =>
    obtain ⟨core, cored⟩ := ih
    cases step with
    | reported | elsewhere => exact ⟨core, cored.honest, cored.told⟩

/-- A core can always be asked for, whatever was checked, refused, asserted and reset before. After
a check that found no model under assumptions it consists of some of them, in their order, which
clash with the assertions, and without any one of which the others do not; after any other check
that was accepted, and after a reset, it is empty. It stays so until the next of these; one that is
refused changes nothing. -/
theorem unsat_core_minimal (history : History Enumerator.Honest s issued scopes) :
    (∃ core, getUnsatCore s = .ok core s) ∧
    ∀ q : Request, ¬ q.KeepsModel → (∀ t ∈ q.terms, s.Available issued t) →
      (∀ answer s', q.perform s = .ok answer s' →
        (∀ assumptions, q = .command (.checkSatAssuming assumptions) → answer = .verdict .unsat →
          ∃ core : List Term, core.Sublist assumptions ∧
            (∀ env, s'.engine.store.Admits env →
              ∃ t ∈ scopes.flatten ++ core, s'.valueUnder env t = .ok (.bool false)) ∧
            (∀ i < core.length, ∃ env, s'.engine.store.Admits env ∧
              ∀ t ∈ scopes.flatten ++ core.eraseIdx i, s'.valueUnder env t = .ok (.bool true)) ∧
            ∀ issued' s'' issued'', Since Request.KeepsModel s' issued' s'' issued'' →
              getUnsatCore s'' = .ok core s'') ∧
        ((∀ assumptions, q = .command (.checkSatAssuming assumptions) → answer ≠ .verdict .unsat) →
          ∀ issued' s'' issued'', Since Request.KeepsModel s' issued' s'' issued'' →
            getUnsatCore s'' = .ok [] s'')) ∧
      ∀ e s', q.perform s = .error e s' → s' = s ∨ getUnsatCore s' = .ok [] s' := by
  obtain ⟨core, cored⟩ := history.cored
  refine ⟨⟨core, getUnsatCore_of_cored cored⟩, fun q renews available => ?_⟩
  obtain ⟨coherent, known⟩ := history.unused.fresh.coherent Enumerator.contract_honoured
  obtain ⟨tidy, asserted⟩ := history.unused.asserted
  have genuine := fun t ht => (available t ht).genuine known
  have renews := renews_perform cored.honest coherent asserted genuine renews
  have accounts := accounts_perform coherent tidy asserted genuine
  refine ⟨fun answer s' done => ?_, fun e s' failed => ?_⟩
  · have lasts : ∀ {core : List Term}, Cored s' core → ∀ issued' s'' issued'',
        Since Request.KeepsModel s' issued' s'' issued'' → getUnsatCore s'' = .ok core s'' :=
      fun cored _ _ _ since => getUnsatCore_of_cored
        (cored.retains (since.retains ((accounts_ok done).mp accounts).1))
    obtain ⟨_, core, rfl, rfl, cored, isCore⟩ | ⟨other, cored⟩ := renews.answer done
    · refine ⟨?_, fun other => absurd rfl (other _ rfl)⟩
      rintro _ ⟨⟩ -
      exact ⟨core, isCore.sublist, isCore.clash, isCore.needed, lasts cored⟩
    · exact ⟨fun assumptions asks found =>
        absurd found (other assumptions asks), fun _ => lasts cored⟩
  · exact (renews.failure failed).imp_right getUnsatCore_of_cored

/-- A symbol and its negation are assumed, which clash: the core is made of them. -/
theorem unsat_core_minimal_literals : ∃ (s s' : Solver Enumerator LogicSort Handle) (x t : Term)
    (core : List Term), History Enumerator.Honest s [x, t] [[]] ∧ x.kind = .symbol "x" ∧
      t.op = PrimOp.not ∧ t.children = [x] ∧
      (Request.command (.checkSatAssuming [x, t])).perform s = .ok (.verdict .unsat) s' ∧
      getUnsatCore s' = .ok core s' ∧ core.Sublist [x, t] ∧ core ≠ [] := by
  have honest := Enumerator.honest_new "m"
  obtain ⟨s, x, t, scene, -, ⟨hx, sort, kind, leaf⟩, ht, op, sort', kind', children⟩ :=
    scene_negation honest honest.toUnused {}
  have coherent := scene.coherent
  obtain ⟨tidy, asserted⟩ := scene.unused.asserted
  have literals : [x, t].forM expectBooleanLiteral = .ok () := by
    rw [List.forM, booleanLiteral_of_symbol sort (Term.isSymbol_iff.mpr ⟨"x", kind⟩) leaf,
      bind_of_ok rfl, List.forM,
      booleanLiteral_of_negation sort' op children (Term.isSymbol_iff.mpr ⟨"x", kind⟩)]
    rfl
  have available : ∀ u ∈ [x, t], s.Available [x, t] u := fun u hu a ha _ => ⟨u, hu, ha⟩
  have truths : ∀ u ∈ [x, t], s.session.Has u ∧ u.sort = .bool := by simp [hx, ht, sort, sort']
  obtain ⟨v, s', done, number⟩ := checkSatAssuming_succeeds coherent asserted truths literals
    (.of_negation ⟨sort, kind, leaf⟩ ⟨op, sort', kind', children⟩ (by simp))
  have genuine : ∀ u ∈ [x, t], s.session.Genuine u := by
    simp [coherent.canonical.toInterned.genuine, hx, ht]
  obtain ⟨kept, -, _, same, decides, sat, -⟩ :=
    decision_right (q := .command (.checkSatAssuming [x, t])) coherent tidy
      asserted genuine rfl done
  cases same
  have high : v = .sat → ∃ env, ∀ u ∈ [x, t], s'.valueUnder env u = .ok (.bool true) :=
    fun found => (sat found).imp fun _ holds u hu => (holds.2.2 u hu).2.2
  obtain rfl : v = .unsat := eq_unsat_of_negation kept.coherent decides high
    (kept.extension.has t ht) op kind' children (by simp) (by simp)
  obtain ⟨-, renews⟩ := unsat_core_minimal scene.history
  obtain ⟨answered, -⟩ := renews (.command (.checkSatAssuming [x, t])) id available
  obtain ⟨core, some_, clash, -, kept⟩ := (answered _ _ done).1 [x, t] rfl rfl
  refine ⟨s, _, x, t, core, scene.history, kind, op, children, done, kept [] _ [] .refl, some_, ?_⟩
  rintro rfl
  obtain ⟨u, hu, -⟩ := clash _ (NodeStore.admits_none _)
  simp at hu

end Solver

end FormulaGraph

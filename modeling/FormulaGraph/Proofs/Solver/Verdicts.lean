import FormulaGraph.Proofs.Enumeration.Cores
import FormulaGraph.Proofs.Solver.Making
import FormulaGraph.Proofs.Solver.Reach

/-!
Verdicts are right. A check on the enumerating engine always decides; its model makes every
assertion and assumption true and stays until the next check, and if it finds none, there is
none.
-/

namespace FormulaGraph

/-- The assumptions of a check. -/
def Request.assumed? : Request → Option (List Term)
  | .command .checkSat => some []
  | .command (.checkSatAssuming assumptions) => some assumptions
  | _ => none

theorem Request.terms_of_assumed {q : Request} {assumptions : List Term}
    (asks : q.assumed? = some assumptions) : q.terms = assumptions := by
  cases q with
  | command c => cases c <;> cases asks <;> rfl
  | _ => cases asks

theorem Enumerator.getValue_bool {e : Enumerator} {n : Handle} {node : Node}
    {env : Assignment} {b : Bool}
    (found : e.store.find? n = some (node, .bool)) (model : e.model = some env)
    (valued : e.store.eval env n = .ok (.bool b)) :
    ∃ m e', getValue n e = .ok m e' ∧ e'.store.find? m = some (.value (.bool b), .bool) ∧
      e'.aliasing = e.aliasing := by
  have known : ∀ c ∈ (Node.value (.bool b)).operands, c.index < e.store.size := by
    simp [Node.operands]
  refine ⟨(e.addNode (.value (.bool b)) .bool known).1,
    (e.addNode (.value (.bool b)) .bool known).2, ?_, ?_, rfl⟩
  · have read : valueInModel n e = .ok (.bool b, .bool) e := by
      rw [valueInModel_of_found model found, valued]
      rfl
    rw [getValue, Action.bind_ok read]
    rfl
  · show (e.store.push _ .bool known).2.find? (e.store.push _ .bool known).1 = _
    rw [NodeStore.find?_push, if_pos (NodeStore.index_push _ _ _ known)]

namespace Solver

open FormulaGraph.Action

variable {s s' : Solver Enumerator LogicSort Handle} {t : Term} {n : Handle} {env : Assignment}
  {issued issued' : List Term} {scopes : List (List Term)} {q : Request} {b : Bool}

/-- The value of a term if the symbols of the engine have these values. -/
def valueUnder (s : Solver Enumerator LogicSort Handle) (env : Assignment) (t : Term) :
    Except Error Datum := do
  s.engine.store.eval env (← s.session.native t)

theorem valueUnder_eq (number : t.session = s.session.number)
    (recorded : s.session.natives[t]? = some n) :
    s.valueUnder env t = s.engine.store.eval env n := by
  rw [valueUnder, Session.native_of_has number recorded]
  rfl

/-- Under a well-sorted assignment the value of a term is a datum of its sort. -/
theorem holds_of_valueUnder {x : Datum} (coherent : s.Coherent Enumerator.contract)
    (ht : s.session.Has t)
    (admits : s.engine.store.Admits env) (value : s.valueUnder env t = .ok x) : t.sort.Holds x := by
  obtain ⟨n, ns, node, recorded, -, found, -⟩ := coherent.node ht
  rw [valueUnder_eq (coherent.canonical.numbered t ht) recorded] at value
  exact NodeStore.holds_eval coherent.mirrored.valid.sorted admits found value

theorem Kept.valueUnder (kept : Kept Enumerator.contract s s')
    (coherent : s.Coherent Enumerator.contract)
    (ht : s.session.Has t) : s'.valueUnder env t = s.valueUnder env t := by
  obtain ⟨n, ns, node, recorded, renders, found, built⟩ := coherent.node ht
  have number := coherent.canonical.numbered t ht
  rw [valueUnder_eq number recorded, valueUnder_eq (number.trans kept.extension.number.symm)
    (kept.extension.natives t n recorded)]
  exact NodeStore.eval_extends kept.grows.store found

theorem Kept.valueUnder_of_native (kept : Kept Enumerator.contract s s')
    (asked : s.session.native t = .ok n) :
    s'.valueUnder env t = s'.engine.store.eval env n := by
  obtain ⟨number, recorded⟩ := Session.native_ok asked
  exact valueUnder_eq (number.trans kept.extension.number.symm)
    (kept.extension.natives t n recorded)

theorem getValue_bool (coherent : s.Coherent Enumerator.contract) (ht : s.session.Has t)
    (sort : t.sort = .bool) (model : s.engine.model = some env)
    (valued : s.valueUnder env t = .ok (.bool b)) :
    Succeeds (getValue t) s fun u s' => s'.session.Has u ∧ u.sort = .bool ∧
      u.kind = .value (.bool b) := by
  obtain ⟨n, ns, node, recorded, renders, found, built⟩ := coherent.node ht
  have number := coherent.canonical.numbered t ht
  rw [valueUnder_eq number recorded] at valued
  rw [sort] at found
  obtain ⟨m, e, read, valueFound, aliasing⟩ := Enumerator.getValue_bool found model valued
  have asked : onEngine (Engine.getValue n) s = .ok m ⟨e, s.session⟩ := onEngine_ok read s.session
  have formed : (s.session.candidate .null .bool (.value (.bool b)) []).Formed := ⟨rfl, rfl⟩
  have interns := coherent.canonical.toInterned.intern (fun _ hc => absurd hc List.not_mem_nil)
    formed m
  have wrapped :
      wrapValue m .bool ⟨e, s.session⟩ = leaf .bool (.value (.bool b)) [] m ⟨e, s.session⟩ :=
    wrapValue_eq_leaf (aliasing.trans coherent.mirrored.aliases) rfl valueFound
  refine ⟨_, ⟨e, _⟩, ?_, interns.has, interns.structure_eq.2.1, interns.structure_eq.2.2.1⟩
  rw [getValue, sort, if_neg (by decide), bind_ok (native_of_recorded number recorded),
    bind_ok asked, wrapped]
  rfl

/-- What the last check has found is still there. -/
structure Retains (s s' : Solver Enumerator LogicSort Handle) : Prop where
  model : s'.engine.model = s.engine.model
  core : s'.engine.core = s.engine.core
  faulty : s'.engine.faulty = s.engine.faulty
  assumptions : s'.session.assumptions = s.session.assumptions
  tidy : s'.Tidy

theorem Retains.refl (tidy : s.Tidy) : Retains s s := ⟨rfl, rfl, rfl, rfl, tidy⟩

theorem Retains.trans {s'' : Solver Enumerator LogicSort Handle} (first : Retains s s')
    (second : Retains s' s'') : Retains s s'' where
  model := second.model.trans first.model
  core := second.core.trans first.core
  faulty := second.faulty.trans first.faulty
  assumptions := second.assumptions.trans first.assumptions
  tidy := second.tidy

theorem Tidy.retains (tidy : s.Tidy) (scopes : Scopes) :
    Retains s ⟨{ s.engine with scopes }, s.session⟩ :=
  ⟨rfl, rfl, rfl, rfl, tidy.sorts, tidy.symbols, tidy.nodes⟩

theorem retains_assertFormula (tidy : s.Tidy) (t : Term) :
    Leads Retains (fun _ => True) (assertFormula t) s fun _ _ => True := by
  obtain ⟨e, refused⟩ | ⟨n, -, -, accepted⟩ := assertFormula_cases t s
  · exact (leads_error refused).mpr ⟨.refl tidy, trivial⟩
  · exact (leads_ok accepted).mpr ⟨tidy.retains _, trivial⟩

theorem retains_pop (tidy : s.Tidy) (levels : UInt64) :
    Leads Retains (fun _ => True) (onEngine (Enumerator.pop levels)) s fun _ _ => True := by
  cases popped : s.engine.scopes.pop? levels.toNat with
  | some left =>
    have run : Enumerator.pop levels s.engine = .ok () { s.engine with scopes := left } := by
      rw [Enumerator.pop, popped]
    exact (leads_ok (onEngine_ok run s.session)).mpr ⟨tidy.retains left, trivial⟩
  | none =>
    have run :
        Enumerator.pop levels s.engine = .error (.usage (.tooFewScopes levels)) s.engine := by
      rw [Enumerator.pop, popped]
    exact (leads_error (onEngine_error run s.session)).mpr ⟨.refl tidy, trivial⟩

theorem retains_perform (tidy : s.Tidy) (keeps : q.KeepsModel) :
    Leads Retains (fun _ => True) q.perform s fun _ _ => True := by
  have reading : q.Reads → Leads Retains (fun _ => True) q.perform s fun _ _ => True :=
    fun reads => (frames_perform tidy reads).weaken fun _ stays =>
      ⟨stays.model, stays.core, stays.faulty, stays.assumptions, stays.tidy⟩
  have finish : ∀ s : Solver Enumerator LogicSort Handle, s.Tidy →
      Leads Retains (fun _ => True) (pure .done : Action _ (Answer LogicSort Term)) s
        fun _ _ => True := fun s tidy => leads_pure (.refl tidy) trivial
  cases q with
  | command c =>
    cases c with
    | assertFormula t =>
      exact (retains_assertFormula tidy t).bind .trans fun _ s' retains _ => finish s' retains.tidy
    | push levels => exact ⟨tidy.retains _, trivial⟩
    | pop levels =>
      exact (retains_pop tidy levels).bind .trans fun _ s' retains _ => finish s' retains.tidy
    | checkSat | checkSatAssuming | checkSatInterruptible | reset | resetAssertions =>
      exact keeps.elim
    | _ => exact reading trivial
  | _ => exact reading trivial

/-- As long as nothing is checked or reset, the model and the core stay. -/
theorem Since.retains (since : Since Request.KeepsModel s issued s' issued') (tidy : s.Tidy) :
    Retains s s' := by
  induction since with
  | refl => exact .refl tidy
  | served _ q keeps step ih =>
    have led := retains_perform ih.tidy keeps
    cases step with
    | answered _ done => exact ih.trans (led.answer done).1
    | failed _ done => exact ih.trans (led.failure done).1
  | aside _ step ih =>
    cases step with
    | reported | elsewhere => exact ih.trans ⟨rfl, rfl, rfl, rfl, ih.tidy.congr rfl rfl⟩

/-- The terms that are to hold in a check, with their nodes. -/
theorem Asserted.formulas {assumptions : List Term} {ns : List Handle}
    (asserted : s.Asserted scopes) (coherent : s.Coherent Enumerator.contract)
    (assumed : List.Forall₂ (fun t n => s.session.native t = .ok n) assumptions ns) :
    List.Forall₂ (fun t n => s.session.native t = .ok n) (scopes.flatten ++ assumptions)
      (s.engine.scopes.levels.flatten ++ ns) := by
  refine List.rel_append (List.rel_flatten ?_) assumed
  have known := fun ts hts t ht => (asserted.known ts hts t ht).1
  refine (List.forall₂_and_left _ _ |>.mpr ⟨known, asserted.renders⟩).imp ?_
  rintro ts ns ⟨has, renders⟩
  refine (List.forall₂_and_left _ _ |>.mpr ⟨has, renders⟩).imp ?_
  rintro t n ⟨ht, found⟩
  exact Session.native_of_has (coherent.canonical.numbered t ht) found

/-- What a check that is answered has found. -/
structure Decided (s : Solver Enumerator LogicSort Handle) (assumptions : List Term) (v : Verdict)
    (s' : Solver Enumerator LogicSort Handle) : Prop where
  sorts : ∀ t ∈ assumptions, t.sort = .bool
  tidy : s'.Tidy
  store : s'.engine.store = s.engine.store
  found : ∃ ns e, List.Forall₂ (fun t n => s.session.native t = .ok n) assumptions ns ∧
    Enumerator.Checked s.engine ns .idle v e ∧ s'.engine.model = e.model

theorem decided_of_answer {assumptions : List Term} (tidy : s.Tidy)
    (asks : q.assumed? = some assumptions) {answer : Answer LogicSort Term}
    (done : q.perform s = .ok answer s') :
    ∃ v, answer = .verdict v ∧ Decided s assumptions v s' := by
  have decided : ∀ {act : Action (Solver Enumerator LogicSort Handle) Verdict}
      {post : Verdict → Solver Enumerator LogicSort Handle → Prop},
      q.perform = (Answer.verdict <$> act) → Leads Rechecks (fun _ => True) act s post →
      (∀ v s', Rechecks s s' → post v s' → Decided s assumptions v s') →
      ∃ v, answer = .verdict v ∧ Decided s assumptions v s' := by
    intro act post performed led found
    rw [performed] at done
    have mapped : Leads Rechecks (fun _ => True) (Answer.verdict <$> act) s
        fun (answer : Answer LogicSort Term) s' =>
          ∃ v, answer = .verdict v ∧ Decided s assumptions v s' :=
      (led.mono found).map fun v s' known => ⟨v, rfl, known⟩
    exact (mapped.answer done).2
  cases q with
  | command c =>
    cases c with
    | checkSat =>
      cases asks
      refine decided rfl (leads_checkSat tidy .idle) ?_
      rintro v s' rechecks ⟨checked, -⟩
      exact ⟨nofun, rechecks.tidy, checked.store, [], s'.engine, .nil, checked, rfl⟩
    | checkSatAssuming ts =>
      cases asks
      refine decided rfl (leads_checkSatAssuming tidy _) ?_
      rintro v _ rechecks ⟨sorts, ns, e, core, renders, checked, rfl⟩
      exact ⟨sorts, rechecks.tidy, checked.store, ns, e, renders, checked, rfl⟩
    | _ => cases asks
  | _ => cases asks

theorem Asserted.truth_values {assumptions : List Term} (asserted : s.Asserted scopes)
    (genuine : ∀ t ∈ assumptions, s.session.Genuine t) (decided : Decided s assumptions v s') :
    ∀ t ∈ scopes.flatten ++ assumptions, s.session.Has t ∧ t.sort = .bool := by
  intro t ht
  cases List.mem_append.mp ht with
  | inl ht =>
    obtain ⟨ts, hts, ht⟩ := List.mem_flatten.mp ht
    exact asserted.known ts hts t ht
  | inr ht =>
    obtain ⟨ns, e, assumed, -⟩ := decided.found
    obtain ⟨n, -, asked⟩ := exists_of_forall₂ assumed.flip ht
    exact ⟨(genuine t ht).has (Session.native_ok asked).1, decided.sorts t ht⟩

/-- What is true in the model is answered as true, until the next check or reset. -/
theorem true_until_checked (coherent : s.Coherent Enumerator.contract) (tidy : s.Tidy)
    (known : ∀ u ∈ issued, s.session.Genuine u) (model : s.engine.model = some env)
    (ht : s.session.Has t) (sort : t.sort = .bool) (valued : s.valueUnder env t = .ok (.bool b))
    (since : Since Request.KeepsModel s issued s' issued') :
    s'.engine.model = some env ∧ s'.valueUnder env t = .ok (.bool b) ∧
      Succeeds (getValue t) s' fun u _ => u.sort = .bool ∧ u.kind = .value (.bool b) := by
  have lasting : ∀ q, Request.KeepsModel q → q ≠ .command .reset := by
    rintro _ keeps rfl
    exact keeps
  obtain ⟨kept, -⟩ := since.kept Enumerator.contract_honoured lasting coherent known
  have model' : s'.engine.model = some env := (since.retains tidy).model.trans model
  have valued' : s'.valueUnder env t = .ok (.bool b) := (kept.valueUnder coherent ht).trans valued
  refine ⟨model', valued', ?_⟩
  exact (getValue_bool kept.coherent (kept.extension.has t ht) sort model' valued').mono
    fun u s' literal => literal.2

/-- A check that answers decides: there is a model of all that was asserted and assumed, which is
kept, or there is none. -/
theorem decision_right {assumptions : List Term} (coherent : s.Coherent Enumerator.contract)
    (tidy : s.Tidy) (asserted : s.Asserted scopes) (genuine : ∀ t ∈ q.terms, s.session.Genuine t)
    (asks : q.assumed? = some assumptions) {answer : Answer LogicSort Term}
    (done : q.perform s = .ok answer s') :
    Kept Enumerator.contract s s' ∧ s'.Tidy ∧ ∃ v, answer = .verdict v ∧ v ≠ .unknown ∧
      (v = .sat → ∃ env, s'.engine.model = some env ∧ s'.engine.store.Admits env ∧
        ∀ t ∈ scopes.flatten ++ assumptions,
          s'.session.Has t ∧ t.sort = .bool ∧ s'.valueUnder env t = .ok (.bool true)) ∧
      (v = .unsat → ∀ env, s'.engine.store.Admits env →
        ∃ t ∈ scopes.flatten ++ assumptions, s'.valueUnder env t = .ok (.bool false)) := by
  obtain ⟨v, rfl, decided⟩ := decided_of_answer tidy asks done
  have lasting : q ≠ .command .reset := by
    rintro rfl
    cases asks
  have kept : Kept _ s s' :=
    (Leads.answer (serves_request Enumerator.contract_honoured coherent genuine lasting) done).1
  have truths := asserted.truth_values (Request.terms_of_assumed asks ▸ genuine) decided
  obtain ⟨ns, e, assumed, checked, model⟩ := decided.found
  have formulas := asserted.formulas coherent assumed
  have values : ∀ {t n}, s.session.native t = .ok n → ∀ env,
      s'.valueUnder env t = s.engine.store.eval env n := fun asked env => by
    rw [kept.valueUnder_of_native asked, decided.store]
  refine ⟨kept, decided.tidy, v, rfl, checked.decides, ?_, ?_⟩
  · rintro rfl
    obtain ⟨env, recorded, admits, holds⟩ := checked.holds
    refine ⟨env, model.trans recorded, decided.store ▸ admits, fun t ht => ?_⟩
    obtain ⟨n, hn, asked⟩ := exists_of_forall₂ formulas.flip ht
    obtain ⟨has, sort⟩ := truths t ht
    have holds' : s.engine.store.eval env n = .ok (.bool true) := by
      refine holds n ?_
      simpa [Scopes.mem_active] using hn
    exact ⟨kept.extension.has t has, sort, (values asked env).trans holds'⟩
  · rintro rfl env admits
    obtain ⟨n, hn, fails⟩ := checked.fails (decided.store ▸ admits)
    have hn : n ∈ s.engine.scopes.levels.flatten ++ ns := by
      simpa [Scopes.mem_active] using hn
    obtain ⟨t, ht, asked⟩ := exists_of_forall₂ formulas hn
    exact ⟨t, ht, (values asked env).trans fails⟩

/-- Formulas that can all be true are found to be. -/
theorem eq_sat_of_high {v : Verdict} {formulas : List Term} (decides : v ≠ .unknown)
    (unsat : v = .unsat → ∀ env, s.engine.store.Admits env →
      ∃ t ∈ formulas, s.valueUnder env t = .ok (.bool false))
    (admits : s.engine.store.Admits env)
    (high : ∀ t ∈ formulas, s.valueUnder env t = .ok (.bool true)) : v = .sat := by
  cases v with
  | sat => rfl
  | unknown => exact absurd rfl decides
  | unsat =>
    obtain ⟨t, ht, low⟩ := unsat rfl env admits
    cases low.symm.trans (high t ht)

/-- Verdicts are right: a check that answers has found a model of all that was asserted and assumed,
or there is none. -/
theorem verdict_right {assumptions : List Term}
    (history : History Enumerator.Unused s issued scopes)
    (asks : q.assumed? = some assumptions) (available : ∀ t ∈ q.terms, s.Available issued t)
    {answer : Answer LogicSort Term} (done : q.perform s = .ok answer s') :
    ∃ v, answer = .verdict v ∧ v ≠ .unknown ∧
      (v = .sat → ∃ env, s'.engine.store.Admits env ∧ ∀ t ∈ scopes.flatten ++ assumptions,
        ∀ s'' issued'', Since Request.KeepsModel s' issued s'' issued'' →
          s''.engine.model = some env ∧ s''.valueUnder env t = .ok (.bool true) ∧
            Succeeds (getValue t) s'' fun u _ => u.sort = .bool ∧ u.kind = .value (.bool true)) ∧
      (v = .unsat → ∀ env, s'.engine.store.Admits env →
        ∃ t ∈ scopes.flatten ++ assumptions, s'.valueUnder env t = .ok (.bool false)) := by
  obtain ⟨coherent, known⟩ := history.fresh.coherent Enumerator.contract_honoured
  obtain ⟨tidy, asserted⟩ := history.asserted
  have genuine : ∀ t ∈ q.terms, s.session.Genuine t := fun t ht => (available t ht).genuine known
  obtain ⟨kept, tidy', v, same, decides, sat, unsat⟩ :=
    decision_right coherent tidy asserted genuine asks done
  refine ⟨v, same, decides, fun found => ?_, unsat⟩
  obtain ⟨env, model, admits, holds⟩ := sat found
  refine ⟨env, admits, fun t ht s'' issued'' since => ?_⟩
  obtain ⟨has, sort, valued⟩ := holds t ht
  have known' := fun u hu => (known u hu).extend kept.extension
  exact true_until_checked kept.coherent tidy' known' model has sort valued since

theorem Coherent.find?_bool (coherent : s.Coherent Enumerator.contract) (ht : s.session.Has t)
    (kind : t.kind = .value (.bool b)) (asked : s.session.native t = .ok n) :
    s.engine.store.find? n = some (.value (.bool b), t.sort) := by
  obtain ⟨m, ns, node, recorded, -, found, built⟩ := coherent.node ht
  cases recorded.symm.trans (Session.native_ok asked).2
  rw [kind] at built
  rw [found, built.of_value]

theorem valueUnder_bool (coherent : s.Coherent Enumerator.contract) (ht : s.session.Has t)
    (kind : t.kind = .value (.bool b)) : s.valueUnder env t = .ok (.bool b) := by
  obtain ⟨n, recorded⟩ := coherent.native ht
  have number := coherent.canonical.numbered t ht
  have found := coherent.find?_bool ht kind (Session.native_of_has number recorded)
  rw [valueUnder_eq number recorded, NodeStore.eval_of_find? found]
  rfl

theorem valueUnder_symbol_none {name : String} (coherent : s.Coherent Enumerator.contract)
    (ht : s.session.Has t) (sort : t.sort = .bool) (kind : t.kind = .symbol name) :
    s.valueUnder (fun _ => none) t = .ok (.bool false) := by
  obtain ⟨n, ns, node, recorded, -, found, built⟩ := coherent.node ht
  rw [kind] at built
  obtain rfl := built.of_symbol
  rw [valueUnder_eq (coherent.canonical.numbered t ht) recorded,
    NodeStore.eval_of_find? found, sort]
  rfl

theorem exists_valueUnder_symbol {name : String} {x : Datum}
    (coherent : s.Coherent Enumerator.contract)
    (ht : s.session.Has t) (kind : t.kind = .symbol name) (holds : t.sort.Holds x) :
    ∃ env, s.engine.store.Admits env ∧ s.valueUnder env t = .ok x := by
  obtain ⟨n, ns, node, recorded, -, found, built⟩ := coherent.node ht
  rw [kind] at built
  obtain rfl := built.of_symbol
  refine ⟨fun m => if m = n then some x else none, fun m y given => ?_, ?_⟩
  · obtain ⟨rfl, rfl⟩ : m = n ∧ x = y := by simpa using given
    exact ⟨_, _, found, holds⟩
  · rw [valueUnder_eq (coherent.canonical.numbered t ht) recorded, NodeStore.eval_of_find? found,
      NodeStore.evalNode, if_pos rfl]

theorem values_iff_of_renders {ts : List Term} {ns : List Handle} {xs : List Datum}
    (coherent : s.Coherent Enumerator.contract) (known : ∀ t ∈ ts, s.session.Has t)
    (renders : s.session.Renders ts ns) :
    List.Forall₂ (fun t x => s.valueUnder env t = .ok x) ts xs ↔
      List.Forall₂ (fun n x => s.engine.store.eval env n = .ok x) ns xs := by
  induction renders generalizing xs with
  | nil => rw [List.forall₂_nil_left_iff, List.forall₂_nil_left_iff]
  | @cons t n ts ns recorded _ ih =>
    obtain ⟨ht, known⟩ := List.forall_mem_cons.mp known
    simp only [List.forall₂_cons_left_iff, ih known,
      valueUnder_eq (coherent.canonical.numbered t ht) recorded]

theorem valueUnder_application {args : List Term} {xs : List Datum}
    (coherent : s.Coherent Enumerator.contract)
    (ht : s.session.Has t) (kind : t.kind = .application) (children : t.children = args)
    (values : List.Forall₂ (fun c x => s.valueUnder env c = .ok x) args xs) :
    s.valueUnder env t = Datum.apply t.op xs t.sort := by
  subst children
  obtain ⟨n, ns, node, recorded, renders, found, built⟩ := coherent.node ht
  rw [kind] at built
  obtain rfl := built.of_application
  have known := fun c hc => (coherent.canonical.children t ht c hc).1
  have valued := mapM_of_forall₂ ((values_iff_of_renders coherent known renders).mp values)
  rw [valueUnder_eq (coherent.canonical.numbered t ht) recorded, NodeStore.eval_of_find? found,
    NodeStore.evalNode, valued]
  rfl

theorem exists_valueUnder_children {y : Datum} (coherent : s.Coherent Enumerator.contract)
    (ht : s.session.Has t) (kind : t.kind = .application) (valued : s.valueUnder env t = .ok y) :
    ∃ xs, List.Forall₂ (fun c x => s.valueUnder env c = .ok x) t.children xs := by
  obtain ⟨n, ns, node, recorded, renders, found, built⟩ := coherent.node ht
  rw [kind] at built
  obtain rfl := built.of_application
  rw [valueUnder_eq (coherent.canonical.numbered t ht) recorded,
    NodeStore.eval_of_find? found] at valued
  obtain ⟨xs, evaluated, -⟩ := ok_of_bind valued
  have known := fun c hc => (coherent.canonical.children t ht c hc).1
  exact ⟨xs, (values_iff_of_renders coherent known renders).mpr (forall₂_of_mapM evaluated)⟩

theorem valueUnder_not {x : Term} (coherent : s.Coherent Enumerator.contract) (ht : s.session.Has t)
    (op : t.op = PrimOp.not) (kind : t.kind = .application) (children : t.children = [x])
    (valued : s.valueUnder env x = .ok (.bool b)) : s.valueUnder env t = .ok (.bool !b) := by
  rw [valueUnder_application coherent ht kind children (.cons valued .nil), op]
  rfl

/-- A term and its negation cannot both be true. -/
theorem eq_unsat_of_negation {v : Verdict} {formulas : List Term} {x : Term}
    (coherent : s.Coherent Enumerator.contract) (decides : v ≠ .unknown)
    (sat : v = .sat → ∃ env, ∀ u ∈ formulas, s.valueUnder env u = .ok (.bool true))
    (ht : s.session.Has t) (op : t.op = PrimOp.not) (kind : t.kind = .application)
    (children : t.children = [x]) (hx : x ∈ formulas) (there : t ∈ formulas) : v = .unsat := by
  cases v with
  | unsat => rfl
  | unknown => exact absurd rfl decides
  | sat =>
    obtain ⟨env, high⟩ := sat rfl
    cases (high t there).symm.trans
      (valueUnder_not coherent ht op kind children (high x hx))

/-- Where what is asserted and assumed is within reach of enumeration, a search under some of the
assumptions comes to an end. -/
theorem Asserted.search_succeeds {assumptions : List Term} {ns ms : List Handle}
    (asserted : s.Asserted scopes) (coherent : s.Coherent Enumerator.contract)
    (assumed : List.Forall₂ (fun t n => s.session.native t = .ok n) assumptions ns)
    (truths : ∀ t ∈ assumptions, s.session.Has t ∧ t.sort = .bool)
    (enumerable : Enumerable (scopes.flatten ++ assumptions)) (fewer : ms.Sublist ns) :
    ∃ finding, s.engine.search ms .idle = .ok finding := by
  have formulas := asserted.formulas coherent assumed
  have known : ∀ t ∈ scopes.flatten ++ assumptions, s.session.Has t ∧ t.sort = .bool := by
    intro t ht
    obtain ht | ht := List.mem_append.mp ht
    · obtain ⟨ts, hts, ht⟩ := List.mem_flatten.mp ht
      exact asserted.known ts hts t ht
    · exact truths t ht
  refine Solver.search_succeeds coherent enumerable (fun n hn => ?_) .idle
  have hn : n ∈ s.engine.scopes.levels.flatten ++ ns := by
    rw [List.mem_append] at hn ⊢
    exact hn.imp Scopes.mem_active.mp fun hn => fewer.subset hn
  obtain ⟨t, ht, asked⟩ := exists_of_forall₂ formulas hn
  exact ⟨t, ht, known t ht, (Session.native_ok asked).2⟩

theorem check_succeeds (coherent : s.Coherent Enumerator.contract) (asserted : s.Asserted scopes)
    (enumerable : Enumerable scopes.flatten) :
    Succeeds (onEngine (Enumerator.check [] .idle)) s fun _ s' => s'.session = s.session := by
  obtain ⟨finding, searched⟩ := asserted.search_succeeds coherent .nil
    (fun t ht => absurd ht List.not_mem_nil) (by rwa [List.append_nil]) (.refl [])
  obtain ⟨v, e, checked, -⟩ := Enumerator.check_succeeds searched
  exact ⟨v, _, onEngine_ok checked s.session, rfl⟩

theorem checkSatAssuming_succeeds {assumptions : List Term}
    (coherent : s.Coherent Enumerator.contract)
    (asserted : s.Asserted scopes) (truths : ∀ t ∈ assumptions, s.session.Has t ∧ t.sort = .bool)
    (literals : assumptions.forM expectBooleanLiteral = .ok ())
    (enumerable : Enumerable (scopes.flatten ++ assumptions)) :
    ∃ v s', (Request.command (.checkSatAssuming assumptions)).perform s = .ok (.verdict v) s' ∧
      s'.session.number = s.session.number := by
  obtain ⟨ns, renders⟩ := coherent.renders fun t ht => (truths t ht).1
  have assumed : List.Forall₂ (fun t n => s.session.native t = .ok n) assumptions ns :=
    (List.forall₂_and_left _ _ |>.mpr ⟨fun t ht => (truths t ht).1, renders⟩).imp
      fun t n ⟨ht, found⟩ =>
      Session.native_of_has (coherent.canonical.numbered t ht) found
  obtain ⟨v, e, checked, -⟩ := Enumerator.checkSatAssuming_succeeds fun ms fewer =>
    asserted.search_succeeds coherent assumed truths enumerable fewer
  have done := (checkSatAssuming_of_literals literals assumed).trans (onEngine_ok checked _)
  exact ⟨v, _, map_ok done, rfl⟩

theorem Asserted.enumerable_values (asserted : s.Asserted scopes)
    (coherent : s.Coherent Enumerator.contract)
    (values : ∀ t ∈ scopes.flatten, ∃ b, t.kind = .value (.bool b)) :
    Enumerable scopes.flatten := by
  have leaf : ∀ t ∈ scopes.flatten, t.sort = .bool ∧ t.children = [] := by
    intro t ht
    obtain ⟨ts, hts, inside⟩ := List.mem_flatten.mp ht
    obtain ⟨has, sort⟩ := asserted.known ts hts t inside
    obtain ⟨b, kind⟩ := values t ht
    have formed := coherent.canonical.formed t has
    rw [Term.Formed, kind] at formed
    exact ⟨sort, formed.2⟩
  refine .of_closed scopes.flatten (fun _ => id) (fun a ha c hc => ?_) (fun a ha => ?_) []
    (fun a ha name symbol => ?_)
    (Nat.zero_le _)
  · rw [(leaf a ha).2] at hc
    exact absurd hc List.not_mem_nil
  · obtain ⟨b, kind⟩ := values a ha
    exact Term.evaluable_value ((leaf a ha).1 ▸ LogicSort.isEnumerable_bool) kind
      fun _ other => by cases other
  · obtain ⟨b, kind⟩ := values a ha
    cases kind.symm.trans symbol

/-- The negation of a symbol is asserted, for which a check finds a model; under the assumption of
the symbol it finds none. -/
theorem verdict_right_negation :
    ∃ (s s₁ s₂ : Solver Enumerator LogicSort Handle) (x t : Term) (env : Assignment),
    History Enumerator.Unused s [x, t] [[t]] ∧ x.kind = .symbol "x" ∧
      t.op = PrimOp.not ∧ t.children = [x] ∧
      (Request.command .checkSat).perform s = .ok (.verdict .sat) s₁ ∧ s₁.engine.model = some env ∧
      s₁.valueUnder env t = .ok (.bool true) ∧
      (Succeeds (getValue t) s₁ fun u _ => u.sort = .bool ∧ u.kind = .value (.bool true)) ∧
      (Request.command (.checkSatAssuming [x])).perform s₁ = .ok (.verdict .unsat) s₂ ∧
      ∀ env, s₂.engine.store.Admits env → ∃ u ∈ [t, x],
        s₂.valueUnder env u = .ok (.bool false) := by
  have unused := Enumerator.unused_new "m"
  obtain ⟨_, x, t, scene', -, ⟨hx, symbol⟩, ht, negation⟩ := scene_negation unused unused {}
  obtain ⟨s, -, same, scene : Scene Enumerator.Unused s [x, t] [[t]]⟩ :=
    scene'.asserted ht negation.2.1
  have enumerable : ∀ {ts : List Term}, (∀ u ∈ ts, u ∈ [x, t]) → Enumerable ts :=
    .of_negation symbol negation
  -- The first check.
  obtain ⟨v, s₁, checked, same₁⟩ :=
    check_succeeds scene.coherent scene.unused.asserted.2 (enumerable (by simp))
  have done : (Request.command .checkSat).perform s = .ok (.verdict v) s₁ := map_ok checked
  have scene₁ : Scene Enumerator.Unused s₁ [x, t] [[t]] :=
    scene.after (fun _ hu => absurd hu List.not_mem_nil) done rfl same₁
  have hx₁ : s₁.session.Has x := same₁ ▸ same ▸ hx
  have ht₁ : s₁.session.Has t := same₁ ▸ same ▸ ht
  obtain ⟨_, ⟨⟩, decides, sat, unsat⟩ :=
    verdict_right scene.unused rfl (fun _ hu => absurd hu List.not_mem_nil) done
  have low := valueUnder_symbol_none scene₁.coherent hx₁ symbol.1 symbol.2.1
  have high := valueUnder_not scene₁.coherent ht₁ negation.1 negation.2.2.1 negation.2.2.2 low
  have found : v = .sat :=
    eq_sat_of_high decides unsat (NodeStore.admits_none _) (by simpa using high)
  obtain ⟨env, -, holds⟩ := sat found
  obtain ⟨model, value, answered⟩ := holds t (by simp) s₁ _ .refl
  -- The second check, under an assumption.
  have truths : ∀ u ∈ [x], s₁.session.Has u ∧ u.sort = .bool := by simp [hx₁, symbol.1]
  have literals : [x].forM expectBooleanLiteral = .ok () := by
    rw [List.forM, booleanLiteral_of_symbol symbol.1
      (Term.isSymbol_iff.mpr ⟨"x", symbol.2.1⟩) symbol.2.2]
    rfl
  obtain ⟨v₂, s₂, done₂, -⟩ :=
    checkSatAssuming_succeeds scene₁.coherent scene₁.unused.asserted.2 truths literals
      (enumerable (by simp))
  have available : ∀ u ∈ (Request.command (.checkSatAssuming [x])).terms, s₁.Available [x, t] u :=
    List.forall_mem_singleton.mpr fun _ below _ => ⟨x, List.mem_cons_self, below⟩
  have genuine : ∀ u ∈ (Request.command (.checkSatAssuming [x])).terms, s₁.session.Genuine u :=
    List.forall_mem_singleton.mpr (scene₁.coherent.canonical.toInterned.genuine hx₁)
  obtain ⟨_, ⟨⟩, decides₂, sat₂, unsat₂⟩ := verdict_right scene₁.unused rfl available done₂
  obtain ⟨kept₂, -⟩ :=
    decision_right scene₁.coherent scene₁.tidy scene₁.unused.asserted.2 genuine rfl done₂
  have holds₂ : v₂ = .sat → ∃ env, ∀ u ∈ [t, x], s₂.valueUnder env u = .ok (.bool true) :=
    fun found => (sat₂ found).imp fun _ holds u hu => (holds.2 u hu s₂ _ .refl).2.1
  have clash : v₂ = .unsat :=
    eq_unsat_of_negation kept₂.coherent decides₂ holds₂ (kept₂.extension.has t ht₁) negation.1
      negation.2.2.1 negation.2.2.2 (by simp) (by simp)
  exact ⟨s, s₁, s₂, x, t, env, scene.history, symbol.2.1, negation.1, negation.2.2.2,
    found ▸ done, model, value, answered, clash ▸ done₂, unsat₂ clash⟩

end Solver

end FormulaGraph

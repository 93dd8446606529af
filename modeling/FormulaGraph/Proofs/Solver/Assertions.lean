import FormulaGraph.Proofs.Enumeration.Checks
import FormulaGraph.Proofs.Solver.Frame
import FormulaGraph.Proofs.Solver.LockStep

/-!
The assertions of a session. What a client has asserted, scope by scope, is followed along a run;
the enumerating engine has the nodes of just these terms in its scopes.
-/

namespace FormulaGraph

namespace Scopes

variable {s s' : Scopes} {t : Handle}

/-- The assertions by scope, from the inside out. -/
def levels (s : Scopes) : List (List Handle) := s.current :: s.enclosing

theorem levels_push (n : Nat) (s : Scopes) :
    (s.push n).levels = List.replicate n [] ++ s.levels := by
  induction n with
  | zero => rfl
  | succ n ih => exact congrArg ([] :: ·) ih

theorem levels_leave (h : 0 < s.depth) : s.leave.levels = s.levels.drop 1 := by
  obtain ⟨current, enclosing⟩ := s
  cases enclosing with
  | nil => exact absurd h (Nat.lt_irrefl 0)
  | cons outer rest => rfl

theorem levels_repeat_leave {n : Nat} (h : n ≤ s.depth) :
    (Nat.repeat leave n s).levels = s.levels.drop n := by
  induction n with
  | zero => rfl
  | succ n ih =>
    have before := ih (Nat.le_of_succ_le h)
    have deeper : 0 < (Nat.repeat leave n s).depth := by
      have lengths := congrArg List.length before
      simp only [levels, List.length_cons, List.length_drop] at lengths
      simp only [depth] at h ⊢
      omega
    show (Nat.repeat leave n s).leave.levels = _
    rw [levels_leave deeper, before, List.drop_drop]

theorem levels_pop? {n : Nat} (h : s.pop? n = some s') : s'.levels = s.levels.drop n := by
  unfold pop? at h
  split at h
  · cases h
    exact levels_repeat_leave ‹_›
  · cases h

theorem mem_active : t ∈ s.active ↔ t ∈ s.levels.flatten := by
  simp only [active, levels, List.mem_append, List.mem_flatten, List.mem_reverse, List.mem_cons]
  constructor
  · rintro (⟨ts, hts, ht⟩ | ht)
    · exact ⟨ts, .inr hts, ht⟩
    · exact ⟨_, .inl rfl, ht⟩
  · rintro ⟨ts, rfl | hts, ht⟩
    · exact .inr ht
    · exact .inl ⟨ts, hts, ht⟩

end Scopes

/-- What a request, once it is answered, makes of the assertions of a session, those of the
innermost scope first. -/
def Request.asserts : Request → List (List Term) → List (List Term)
  | .command (.assertFormula t), current :: outer => (current ++ [t]) :: outer
  | .command (.push levels), scopes => List.replicate levels.toNat [] ++ scopes
  | .command (.pop levels), scopes => scopes.drop levels.toNat
  | .command .reset, _ | .command .resetAssertions, _ => [[]]
  | _, scopes => scopes

namespace Solver

section Histories

variable {σ S T : Type} [BEq T] [Hashable T] [Engine σ S T]

/-- A request is answered, or it fails. -/
inductive Served (q : Request) : Bool → Solver σ S T → List Term → Solver σ S T → List Term → Prop
  | answered {s s' : Solver σ S T} {issued : List Term}
      (available : ∀ t ∈ q.terms, s.Available issued t) {answer : Answer LogicSort Term}
      (done : q.perform s = .ok answer s') :
      Served q true s issued s' (stillIssued s s' issued ++ answer.given)
  | failed {s s' : Solver σ S T} {issued : List Term}
      (available : ∀ t ∈ q.terms, s.Available issued t) {e : Error}
      (done : q.perform s = .error e s') : Served q false s issued s' (stillIssued s s' issued)

/-- What happens to a solver between requests. -/
inductive Aside : Solver σ S T → Solver σ S T → Prop
  | reported {s : Solver σ S T} : Aside s (Engine.takeNotices s).2
  | elsewhere {s : Solver σ S T} {supply : Supply}
      (nextTerm : s.session.supply.nextTerm ≤ supply.nextTerm)
      (nextSession : s.session.supply.nextSession ≤ supply.nextSession) :
      Aside s ⟨s.engine, { s.session with supply }⟩

/-- A run of a solver along with what is asserted in its session. -/
inductive History (start : σ → Prop) : Solver σ S T → List Term → List (List Term) → Prop
  | new {e : σ} (starts : start e) (supply : Supply) (evicts : Eviction := .never) :
      History start (Solver.new e supply evicts) [] [[]]
  | served {s s' : Solver σ S T} {issued issued' : List Term} {scopes : List (List Term)}
      (before : History start s issued scopes) (q : Request) {ok : Bool}
      (step : Served q ok s issued s' issued') :
      History start s' issued' (if ok then q.asserts scopes else scopes)
  | aside {s s' : Solver σ S T} {issued : List Term} {scopes : List (List Term)}
      (before : History start s issued scopes) (step : Aside s s') :
      History start s' issued scopes

/-- A run goes on for a while, and every request of it is of a kind. -/
inductive Since (P : Request → Prop) (s : Solver σ S T) (issued : List Term) :
    Solver σ S T → List Term → Prop
  | refl : Since P s issued s issued
  | served {s' s'' : Solver σ S T} {issued' issued'' : List Term}
      (before : Since P s issued s' issued') (q : Request) (kind : P q) {ok : Bool}
      (step : Served q ok s' issued' s'' issued'') : Since P s issued s'' issued''
  | aside {s' s'' : Solver σ S T} {issued' : List Term} (before : Since P s issued s' issued')
      (step : Aside s' s'') : Since P s issued s'' issued'

variable {start : σ → Prop} {s s' : Solver σ S T} {issued issued' : List Term}
    {q : Request} {ok : Bool}
  {K : Contract σ S T}

theorem Served.advance (step : Served q ok s issued s' issued') : Advance s issued s' issued' := by
  cases step with
  | answered available done => exact .answered q available done
  | failed available done => exact .failed q available done

theorem History.answer {scopes : List (List Term)}
    (history : History start s issued scopes) (q : Request)
    (available : ∀ t ∈ q.terms, s.Available issued t) {answer : Answer LogicSort Term}
    (done : q.perform s = .ok answer s') (lasts : s'.session.number = s.session.number) :
    History start s' (issued ++ answer.given) (q.asserts scopes) := by
  have longer := history.served q (.answered available done)
  rw [stillIssued, if_pos lasts] at longer
  exact longer

theorem Aside.advance (step : Aside s s') (issued : List Term) : Advance s issued s' issued := by
  cases step with
  | reported => exact .reported
  | elsewhere nextTerm nextSession => exact .elsewhere nextTerm nextSession

theorem History.run {scopes : List (List Term)} (history : History start s issued scopes) :
    Run start s issued := by
  induction history with
  | new starts supply evicts => exact .new starts supply evicts
  | served _ _ step ih => exact ih.next step.advance
  | aside _ step ih => exact ih.next (step.advance _)

theorem Run.history (run : Run start s issued) : ∃ scopes, History start s issued scopes := by
  induction run with
  | new starts supply evicts => exact ⟨[[]], .new starts supply evicts⟩
  | next _ step ih =>
    obtain ⟨scopes, history⟩ := ih
    cases step with
    | answered q available done => exact ⟨_, history.served q (.answered available done)⟩
    | failed q available done => exact ⟨_, history.served q (.failed available done)⟩
    | reported => exact ⟨_, history.aside .reported⟩
    | elsewhere nextTerm nextSession => exact ⟨_, history.aside (.elsewhere nextTerm nextSession)⟩

theorem Run.mono {start' : σ → Prop} (run : Run start s issued) (weaker : ∀ e, start e → start' e) :
    Run start' s issued := by
  induction run with
  | new starts supply evicts => exact .new (weaker _ starts) supply evicts
  | next _ step ih => exact ih.next step

theorem History.mono {start' : σ → Prop} {scopes : List (List Term)}
    (history : History start s issued scopes)
    (weaker : ∀ e, start e → start' e) : History start' s issued scopes := by
  induction history with
  | new starts supply evicts => exact .new (weaker _ starts) supply evicts
  | served _ q step ih => exact ih.served q step
  | aside _ step ih => exact ih.aside step

theorem Served.kept [EquivBEq T] [LawfulHashable T] (honoured : K.Honoured start)
    (coherent : s.Coherent K) (known : ∀ u ∈ issued, s.session.Genuine u)
    (step : Served q ok s issued s' issued') (lasting : q ≠ .command .reset) :
    Kept K s s' ∧ ∀ u ∈ issued', s'.session.Genuine u := by
  refine ⟨?_, (step.advance.coherent honoured coherent known).2.1⟩
  cases step with
  | answered available done =>
    have genuine := fun t ht => (available t ht).genuine known
    exact (Action.Leads.answer (serves_request honoured coherent genuine lasting) done).1
  | failed available done =>
    have genuine := fun t ht => (available t ht).genuine known
    exact (request_failed honoured coherent genuine done).1

theorem Aside.kept [EquivBEq T] [LawfulHashable T] (honoured : K.Honoured start)
    (coherent : s.Coherent K) (step : Aside s s') : Kept K s s' := by
  have coherent' := ((step.advance []).coherent honoured coherent nofun).1
  cases step with
  | reported => exact ⟨coherent', .congr rfl rfl rfl rfl rfl, honoured.refl _, .refl _⟩
  | elsewhere nextTerm nextSession =>
    exact ⟨coherent', .congr rfl rfl rfl rfl rfl, honoured.refl _, nextTerm, nextSession⟩

theorem History.since {P : Request → Prop} {scopes : List (List Term)}
    (history : History start s issued scopes) (since : Since P s issued s' issued') :
    ∃ scopes, History start s' issued' scopes := by
  induction since with
  | refl => exact ⟨scopes, history⟩
  | served _ q _ step ih =>
    obtain ⟨_, longer⟩ := ih
    exact ⟨_, longer.served q step⟩
  | aside _ step ih =>
    obtain ⟨_, longer⟩ := ih
    exact ⟨_, longer.aside step⟩

theorem Since.kept [EquivBEq T] [LawfulHashable T] (honoured : K.Honoured start)
    {P : Request → Prop} (lasting : ∀ q, P q → q ≠ .command .reset) (coherent : s.Coherent K)
    (known : ∀ u ∈ issued, s.session.Genuine u) (since : Since P s issued s' issued') :
    Kept K s s' ∧ ∀ u ∈ issued', s'.session.Genuine u := by
  induction since with
  | refl => exact ⟨.refl honoured coherent, known⟩
  | served _ q kind step ih =>
    obtain ⟨kept, known'⟩ := step.kept honoured ih.1.coherent ih.2 (lasting q kind)
    exact ⟨ih.1.trans honoured kept, known'⟩
  | aside _ step ih =>
    have kept := step.kept honoured ih.1.coherent
    exact ⟨ih.1.trans honoured kept, fun u hu => (ih.2 u hu).extend kept.extension⟩

end Histories

end Solver

/-- An engine of which nothing at all has been asked yet, whatever its settings. -/
structure Enumerator.Unused (e : Enumerator) : Prop extends Enumerator.Fresh e where
  symbols : e.symbols = {}
  scopes : e.scopes = {}

theorem Enumerator.unused_new (name : String) : (Enumerator.new name).Unused :=
  ⟨Enumerator.fresh_new name, rfl, rfl⟩

namespace Solver

section Enumeration

open FormulaGraph.Action

variable {s s' : Solver Enumerator LogicSort Handle} {t : Term} {issued issued' : List Term}
  {scopes : List (List Term)} {q : Request} {ok : Bool}

/-- The engine's scopes hold the nodes of these terms. -/
structure Asserted (s : Solver Enumerator LogicSort Handle) (scopes : List (List Term)) : Prop where
  known : ∀ ts ∈ scopes, ∀ t ∈ ts, s.session.Has t ∧ t.sort = .bool
  renders : List.Forall₂ s.session.Renders scopes s.engine.scopes.levels

theorem Asserted.same (asserted : s.Asserted scopes) (extension : s.session.Extends s'.session)
    (same : s'.engine.scopes = s.engine.scopes) : s'.Asserted scopes := by
  refine ⟨fun ts hts t ht => ?_, ?_⟩
  · obtain ⟨has, sort⟩ := asserted.known ts hts t ht
    exact ⟨extension.has t has, sort⟩
  · rw [same]
    exact asserted.renders.imp fun ts ns renders => renders.extend extension

theorem asserted_empty (empty : s.engine.scopes = {}) : s.Asserted [[]] := by
  refine ⟨by simp, ?_⟩
  rw [empty]
  exact .cons .nil .nil

theorem Asserted.assert {n : Handle} {current : List Term} {outer : List (List Term)}
    (asserted : s.Asserted (current :: outer)) (has : s.session.Has t) (sort : t.sort = .bool)
    (recorded : s.session.natives[t]? = some n) :
    Asserted ⟨{ s.engine with scopes := s.engine.scopes.assert n }, s.session⟩
      ((current ++ [t]) :: outer) := by
  obtain ⟨known, renders⟩ := asserted
  obtain ⟨inner, outers⟩ := List.forall₂_cons.mp renders
  refine ⟨?_, .cons (List.rel_append inner (.cons recorded .nil)) outers⟩
  simp only [List.forall_mem_cons, List.forall_mem_append, List.not_mem_nil] at known ⊢
  exact ⟨⟨known.1, ⟨has, sort⟩, nofun⟩, known.2⟩

theorem Asserted.push (asserted : s.Asserted scopes) (n : Nat) :
    Asserted ⟨{ s.engine with scopes := s.engine.scopes.push n }, s.session⟩
      (List.replicate n [] ++ scopes) := by
  refine ⟨fun ts hts t ht => ?_, ?_⟩
  · cases List.mem_append.mp hts with
    | inl hts =>
      rw [List.eq_of_mem_replicate hts] at ht
      exact absurd ht List.not_mem_nil
    | inr hts => exact asserted.known ts hts t ht
  · rw [Scopes.levels_push]
    refine List.rel_append ?_ asserted.renders
    induction n with
    | zero => exact .nil
    | succ n ih => exact .cons .nil ih

theorem Asserted.pop {n : Nat} {left : Scopes} (asserted : s.Asserted scopes)
    (popped : s.engine.scopes.pop? n = some left) :
    Asserted ⟨{ s.engine with scopes := left }, s.session⟩ (scopes.drop n) := by
  refine ⟨fun ts hts t ht => asserted.known ts (List.mem_of_mem_drop hts) t ht, ?_⟩
  rw [Scopes.levels_pop? popped]
  exact List.forall₂_drop n asserted.renders

theorem assertFormula_of_found {n : Handle} {entry : Node × LogicSort} (sort : t.sort = .bool)
    (asked : s.session.native t = .ok n) (found : s.engine.store.find? n = some entry) :
    assertFormula t s =
      .ok () ⟨{ s.engine with scopes := s.engine.scopes.assert n }, s.session⟩ := by
  have run : native t s = .ok n s := by rw [native, ask, asked]
  have looked : (discard (Enumerator.lookUp n)) s.engine = .ok () s.engine := by
    show (Action.ofExcept (s.engine.store.find n) >>= _) s.engine = _
    rw [NodeStore.find, found]
    rfl
  have added : Enumerator.assertFormula n s.engine =
      .ok () { s.engine with scopes := s.engine.scopes.assert n } := bind_ok looked
  rw [assertFormula, sort]
  show (native t >>= _) s = _
  rw [bind_ok run]
  exact onEngine_ok added s.session

theorem assertFormula_cases (t : Term) (s : Solver Enumerator LogicSort Handle) :
    (∃ e, assertFormula t s = .error e s) ∨
      ∃ n, t.sort = .bool ∧ s.session.native t = .ok n ∧ assertFormula t s =
        .ok () ⟨{ s.engine with scopes := s.engine.scopes.assert n }, s.session⟩ := by
  cases truth : t.sort.expectBool with
  | error e => exact .inl ⟨e, by rw [assertFormula, truth]; rfl⟩
  | ok u =>
    have passed : assertFormula t s = (native t >>= fun n =>
        onEngine (Enumerator.assertFormula n) : Action (Solver Enumerator _ _) Unit) s := by
      rw [assertFormula, truth]
      rfl
    cases asked : s.session.native t with
    | error e =>
      have run : native t s = .error e s := by rw [native, ask, asked]
      exact .inl ⟨e, passed.trans (bind_error run)⟩
    | ok n =>
      have run : native t s = .ok n s := by rw [native, ask, asked]
      cases found : s.engine.store.find n with
      | error e =>
        have refused : Enumerator.assertFormula n s.engine = .error e s.engine := by
          have looked : (discard (Enumerator.lookUp n)) s.engine = .error e s.engine := by
            show (Action.ofExcept (s.engine.store.find n) >>= _) s.engine = _
            rw [found]
            rfl
          exact bind_error looked
        exact .inl ⟨e, passed.trans ((bind_ok run).trans (onEngine_error refused s.session))⟩
      | ok entry =>
        have sort := LogicSort.expectBool_ok truth
        exact .inr ⟨n, sort, rfl, assertFormula_of_found sort asked (NodeStore.find_ok found)⟩

theorem assertFormula_succeeds (coherent : s.Coherent Enumerator.contract) (ht : s.session.Has t)
    (sort : t.sort = .bool) : ∃ n, s.session.native t = .ok n ∧ assertFormula t s =
      .ok () ⟨{ s.engine with scopes := s.engine.scopes.assert n }, s.session⟩ := by
  obtain ⟨n, ns, node, recorded, -, found, -⟩ := coherent.node ht
  have asked : s.session.native t = .ok n :=
    Session.native_of_has (coherent.canonical.numbered t ht) recorded
  exact ⟨n, asked, assertFormula_of_found sort asked found⟩

/-- What a check leaves alone. -/
structure Rechecks (s s' : Solver Enumerator LogicSort Handle) : Prop where
  scopes : s'.engine.scopes = s.engine.scopes
  tidy : s'.Tidy

theorem Rechecks.of_rechecked (tidy : s.Tidy) {e : Enumerator}
    (rechecked : Enumerator.Rechecked s.engine e) : Rechecks s ⟨e, s.session⟩ := by
  obtain ⟨model, core, rfl⟩ := rechecked
  exact ⟨rfl, tidy.sorts, tidy.symbols, tidy.nodes⟩

theorem leads_checkSat (tidy : s.Tidy) (token : CancelToken) :
    Leads Rechecks (fun _ => True) (onEngine (Enumerator.check [] token)) s fun v s' =>
      Enumerator.Checked s.engine [] token v s'.engine ∧ s'.session = s.session :=
  leads_onEngine (Enumerator.leads_check s.engine [] token)
    fun _ forgotten => .of_rechecked tidy forgotten.rechecked

theorem leads_checkSatAssuming (tidy : s.Tidy) (assumptions : List Term) :
    Leads Rechecks (fun _ => True) (checkSatAssuming assumptions) s fun v s' =>
      (∀ t ∈ assumptions, t.sort = .bool) ∧ ∃ ns e core,
        List.Forall₂ (fun t n => s.session.native t = .ok n) assumptions ns ∧
        Enumerator.Checked s.engine ns .idle v e ∧
        s' = ⟨{ e with core }, rememberAssumptions ns assumptions s.session⟩ := by
  obtain ⟨e, refused⟩ | ⟨ns, sorts, renders, passed⟩ := checkSatAssuming_cases assumptions s
  · exact (leads_error refused).mpr ⟨⟨rfl, tidy⟩, trivial⟩
  · have remembered : Tidy ⟨s.engine, rememberAssumptions ns assumptions s.session⟩ :=
      tidy.congr rfl rfl
    have led := Enumerator.leads_checkSatAssuming s.engine ns
    cases h : Enumerator.checkSatAssuming ns s.engine with
    | ok v e' =>
      obtain ⟨rechecked, e, core, checked, rfl⟩ := led.answer h
      have rechecks := Rechecks.of_rechecked remembered rechecked
      refine (leads_ok (passed.trans (onEngine_ok h _))).mpr
        ⟨⟨rechecks.scopes, rechecks.tidy⟩, sorts, ?_⟩
      exact ⟨ns, e, core, renders, checked, rfl⟩
    | error x e' =>
      have rechecks := Rechecks.of_rechecked remembered (led.failure h).1
      exact (leads_error (passed.trans (onEngine_error h _))).mpr
        ⟨⟨rechecks.scopes, rechecks.tidy⟩, trivial⟩

/-- A request keeps the order, and the assertions are as they should be afterwards. -/
def Accounts (q : Request) (s : Solver Enumerator LogicSort Handle)
    (scopes : List (List Term)) : Prop :=
  match q.perform s with
  | .ok _ s' => s'.Tidy ∧ s'.Asserted (q.asserts scopes)
  | .error _ s' => s'.Tidy ∧ s'.Asserted scopes

theorem accounts_ok {answer : Answer LogicSort Term} (done : q.perform s = .ok answer s') :
    Accounts q s scopes ↔ s'.Tidy ∧ s'.Asserted (q.asserts scopes) := by
  rw [Accounts, done]

theorem accounts_error {e : Error} (done : q.perform s = .error e s') :
    Accounts q s scopes ↔ s'.Tidy ∧ s'.Asserted scopes := by
  rw [Accounts, done]

theorem accounts_assertFormula (tidy : s.Tidy) (asserted : s.Asserted scopes)
    (genuine : s.session.Genuine t) :
    Accounts (.command (.assertFormula t)) s scopes := by
  have performed : (Request.command (.assertFormula t)).perform s =
      (assertFormula t >>= fun _ => pure .done : Action _ _) s := rfl
  obtain ⟨e, refused⟩ | ⟨n, sort, asked, accepted⟩ := assertFormula_cases t s
  · exact (accounts_error (performed.trans (bind_error refused))).mpr ⟨tidy, asserted⟩
  · obtain ⟨number, found⟩ := Session.native_ok asked
    refine (accounts_ok (performed.trans (bind_ok accepted))).mpr
      ⟨⟨tidy.sorts, tidy.symbols, tidy.nodes⟩, ?_⟩
    cases scopes with
    | nil => cases asserted.renders
    | cons current outer => exact asserted.assert (genuine.has number) sort found

theorem accounts_push (tidy : s.Tidy) (asserted : s.Asserted scopes) (levels : UInt64) :
    Accounts (.command (.push levels)) s scopes :=
  ⟨⟨tidy.sorts, tidy.symbols, tidy.nodes⟩, asserted.push levels.toNat⟩

theorem accounts_pop (tidy : s.Tidy) (asserted : s.Asserted scopes) (levels : UInt64) :
    Accounts (.command (.pop levels)) s scopes := by
  have performed : (Request.command (.pop levels)).perform s =
      (onEngine (Enumerator.pop levels) >>= fun _ => pure .done : Action _ _) s := rfl
  cases popped : s.engine.scopes.pop? levels.toNat with
  | some left =>
    have run : Enumerator.pop levels s.engine = .ok () { s.engine with scopes := left } := by
      rw [Enumerator.pop, popped]
    exact (accounts_ok (performed.trans (bind_ok (onEngine_ok run s.session)))).mpr
      ⟨⟨tidy.sorts, tidy.symbols, tidy.nodes⟩, asserted.pop popped⟩
  | none =>
    have run :
        Enumerator.pop levels s.engine = .error (.usage (.tooFewScopes levels)) s.engine := by
      rw [Enumerator.pop, popped]
    exact (accounts_error (performed.trans (bind_error (onEngine_error run s.session)))).mpr
      ⟨tidy, asserted⟩

theorem tidy_of_empty (sorts : s.session.sorts = {}) (symbols : s.engine.symbols = {})
    (store : s.engine.store = .empty) : s.Tidy := by
  refine ⟨fun sort made found => ?_, fun name known => ?_, fun t node sort found => ?_⟩
  · rw [sorts] at found
    simp at found
  · rw [symbols] at known
    simp at known
  · rw [store] at found
    cases found

theorem accounts_reset (s : Solver Enumerator LogicSort Handle) (scopes : List (List Term)) :
    Accounts (.command .reset) s scopes :=
  ⟨tidy_of_empty rfl rfl rfl, asserted_empty rfl⟩

theorem accounts_same (coherent : s.Coherent Enumerator.contract)
    (genuine : ∀ t ∈ q.terms, s.session.Genuine t) (lasting : q ≠ .command .reset)
    (asserted : s.Asserted scopes) (same : q.asserts scopes = scopes)
    {post : Answer LogicSort Term → Solver Enumerator LogicSort Handle → Prop}
    (led : Leads Rechecks (fun _ => True) q.perform s post) : Accounts q s scopes := by
  have serves := serves_request Enumerator.contract_honoured coherent genuine lasting
  cases done : q.perform s with
  | ok answer s' =>
    have rechecks := (led.answer done).1
    rw [accounts_ok done, same]
    exact ⟨rechecks.tidy, asserted.same (Leads.answer serves done).1.extension rechecks.scopes⟩
  | error e s' =>
    have rechecks := (led.failure done).1
    rw [accounts_error done]
    exact ⟨rechecks.tidy, asserted.same (Leads.failure serves done).1.extension rechecks.scopes⟩

/-- Each request accounts for the assertions, whether it is answered or fails. -/
theorem accounts_perform (coherent : s.Coherent Enumerator.contract) (tidy : s.Tidy)
    (asserted : s.Asserted scopes) (genuine : ∀ t ∈ q.terms, s.session.Genuine t) :
    Accounts q s scopes := by
  have reading : q.Reads → q.asserts scopes = scopes → Accounts q s scopes := by
    intro reads same
    have lasting : q ≠ .command .reset := by
      rintro rfl
      exact reads
    exact accounts_same coherent genuine lasting asserted same
      ((frames_perform tidy reads).weaken fun _ stays => ⟨stays.scopes, stays.tidy⟩)
  have checking : q ≠ .command .reset → q.asserts scopes = scopes →
      (∃ act : Action (Solver Enumerator LogicSort Handle) Verdict, ∃ post,
        q.perform = (Answer.verdict <$> act) ∧ Leads Rechecks (fun _ => True) act s post) →
      Accounts q s scopes := by
    rintro lasting same ⟨act, post, performed, led⟩
    have checks : Leads Rechecks (fun _ => True) q.perform s fun _ _ => True := by
      rw [performed]
      exact led.map fun _ _ _ => trivial
    exact accounts_same coherent genuine lasting asserted same checks
  cases q with
  | command c =>
    cases c with
    | assertFormula t => exact accounts_assertFormula tidy asserted (genuine t List.mem_cons_self)
    | checkSat => exact checking nofun rfl ⟨_, _, rfl, leads_checkSat tidy .idle⟩
    | checkSatAssuming ts => exact checking nofun rfl ⟨_, _, rfl, leads_checkSatAssuming tidy ts⟩
    | checkSatInterruptible token => exact checking nofun rfl ⟨_, _, rfl, leads_checkSat tidy token⟩
    | push levels => exact accounts_push tidy asserted levels
    | pop levels => exact accounts_pop tidy asserted levels
    | reset => exact accounts_reset s scopes
    | resetAssertions => exact ⟨⟨tidy.sorts, tidy.symbols, tidy.nodes⟩, asserted_empty rfl⟩
    | _ => exact reading trivial rfl
  | _ => exact reading trivial rfl

theorem History.fresh (history : History Enumerator.Unused s issued scopes) :
    Run Enumerator.Fresh s issued :=
  history.run.mono fun _ unused => unused.toFresh

/-- In every history, the engine's scopes hold the nodes of what has been asserted. -/
theorem History.asserted (history : History Enumerator.Unused s issued scopes) :
    s.Tidy ∧ s.Asserted scopes := by
  induction history with
  | new starts supply =>
    exact ⟨tidy_of_empty rfl starts.symbols starts.store, asserted_empty starts.scopes⟩
  | @served s s' issued issued' scopes before q ok step ih =>
    obtain ⟨coherent, known⟩ := before.fresh.coherent Enumerator.contract_honoured
    have accounts : (∀ t ∈ q.terms, s.Available issued t) → Accounts q s scopes := fun available =>
      accounts_perform coherent ih.1 ih.2 fun t ht => (available t ht).genuine known
    cases step with
    | answered available done => exact (accounts_ok done).mp (accounts available)
    | failed available done => exact (accounts_error done).mp (accounts available)
  | aside _ step ih =>
    obtain ⟨tidy, asserted⟩ := ih
    cases step with
    | reported => exact ⟨tidy.congr rfl rfl, asserted.same (.congr rfl rfl rfl rfl rfl) rfl⟩
    | elsewhere => exact ⟨tidy.congr rfl rfl, asserted.same (.congr rfl rfl rfl rfl rfl) rfl⟩

end Enumeration

end Solver

end FormulaGraph

import FormulaGraph.Proofs.Enumeration.Assumptions
import FormulaGraph.Proofs.Enumeration.Totality
import FormulaGraph.Proofs.Solver.LaterChecks
import FormulaGraph.Proofs.Solver.Rechecks
import FormulaGraph.Proofs.Solver.Transfer

/-!
Assumptions are a scope for one check. To check under assumptions is to enter a scope, assert them
one after the other and check, except that nothing stays asserted: later checks are as they would
have been.
-/

namespace FormulaGraph

namespace Solver

open FormulaGraph.Action

/-- The assumptions are asserted in a scope of their own, and checked there. -/
def checkInScope {σ S T : Type} [BEq T] [Hashable T] [Engine σ S T] (assumptions : List Term) :
    Action (Solver σ S T) Verdict := do
  Engine.push (σ := Solver σ S T) 1
  assumptions.forM assertFormula
  Engine.checkSat

variable {s s' : Solver Enumerator LogicSort Handle} {t : Term} {n : Handle}
    {ns : List Handle} {env : Assignment}
  {assumptions issued : List Term} {scopes : List (List Term)}

section Literals

theorem atom_of_booleanLiteral (literal : expectBooleanLiteral t = .ok ()) :
    t.isSymbol = true ∨ ∃ x rest, t.op.prim = .not ∧ t.children = x :: rest ∧
      x.isSymbol = true := by
  unfold expectBooleanLiteral at literal
  split at literal
  · rename_i x rest prim children
    refine .inr ⟨x, rest, prim, children, ?_⟩
    by_contra other
    simp [other] at literal
  · refine .inl ?_
    by_contra other
    simp [other] at literal

theorem node_of_symbol (coherent : s.Coherent Enumerator.contract) (ht : s.session.Has t)
    (recorded : s.session.natives[t]? = some n) (symbol : t.isSymbol = true) :
    ∃ name, s.engine.store.find? n = some (.symbol name, t.sort) := by
  obtain ⟨name, kind⟩ := Term.isSymbol_iff.mp symbol
  obtain ⟨_, _, node, recorded', -, found, built⟩ := coherent.node ht
  cases recorded.symm.trans recorded'
  rw [kind] at built
  exact ⟨name, built.of_symbol ▸ found⟩

theorem node_of_negation (coherent : s.Coherent Enumerator.contract) (ht : s.session.Has t)
    (recorded : s.session.natives[t]? = some n) (prim : t.op.prim = .not)
    {x : Term} {rest : List Term} (children : t.children = x :: rest) (symbol : x.isSymbol = true) :
    ∃ m name, s.engine.store.find? n = some (.application t.op [m], t.sort) ∧
      s.engine.store.find? m = some (.symbol name, .bool) := by
  obtain ⟨_, ms, node, recorded', renders, found, built⟩ := coherent.node ht
  cases recorded.symm.trans recorded'
  obtain ⟨application, truths⟩ := coherent.truths_of_connective ht (by rw [prim]; rfl)
  rw [application] at built
  obtain rfl := built.of_application
  have arity := Op.arity_of_resultSort (derived_of_has coherent ht application)
  rw [prim, List.length_map, children] at arity
  obtain rfl : rest = [] :=
    List.length_eq_zero_iff.mp (Nat.succ.inj (Arity.eq_of_admits_exactly arity))
  rw [children] at renders truths
  obtain ⟨m, _, first, none, rfl⟩ := List.forall₂_cons_left_iff.mp renders
  cases none
  have hx := (coherent.canonical.children t ht x (children ▸ List.mem_cons_self)).1
  obtain ⟨name, inner⟩ := node_of_symbol coherent hx first symbol
  exact ⟨m, name, found, truths x List.mem_cons_self ▸ inner⟩

/-- A literal has a truth value, whatever values the symbols have. -/
theorem truth_of_booleanLiteral (coherent : s.Coherent Enumerator.contract) (ht : s.session.Has t)
    (literal : expectBooleanLiteral t = .ok ()) (recorded : s.session.natives[t]? = some n)
    (admits : s.engine.store.Admits env) : ∃ b, s.engine.store.eval env n = .ok (.bool b) := by
  have sorted := coherent.mirrored.valid.sorted
  have sort := sort_of_booleanLiteral literal
  obtain symbol | ⟨x, rest, prim, children, symbol⟩ := atom_of_booleanLiteral literal
  · obtain ⟨name, found⟩ := node_of_symbol coherent ht recorded symbol
    rw [sort] at found
    refine NodeStore.eval_bool_succeeds sorted admits found fun u node sort' under found' => ?_
    obtain rfl : u = n := by simpa [NodeStore.below_iff found, Node.operands] using under
    cases found.symm.trans found'
    exact ⟨1, by decide, rfl⟩
  · obtain ⟨m, name, found, inner⟩ := node_of_negation coherent ht recorded prim children symbol
    rw [sort] at found
    refine NodeStore.eval_bool_succeeds sorted admits found fun u node sort' under found' => ?_
    obtain rfl | ⟨c, hc, under⟩ := (NodeStore.below_iff found).mp under
    · cases found.symm.trans found'
      exact ⟨by rw [prim]; rfl, fun sorts _ => by rw [Op.shiftsFit, prim]⟩
    · obtain rfl : c = m := by simpa [Node.operands] using hc
      obtain rfl : u = c := by simpa [NodeStore.below_iff inner, Node.operands] using under
      cases inner.symm.trans found'
      exact ⟨1, by decide, rfl⟩

end Literals

section Scopes

theorem active_assertAll (ns : List Handle) (scopes : Scopes) :
    (ns.foldl (fun scopes n => scopes.assert n) scopes).active = scopes.active ++ ns := by
  induction ns generalizing scopes with
  | nil => exact (List.append_nil _).symm
  | cons n ns ih =>
    rw [List.foldl_cons, ih, Scopes.active_assert, List.append_assoc, List.singleton_append]

theorem assertAll_of_found {ts : List Term} (e : Enumerator) (session : Session LogicSort Handle)
    (found : List.Forall₂ (fun t n => t.sort = .bool ∧ session.native t = .ok n ∧ e.store.Knows n)
      ts ns)
    (scopes : Scopes) :
    ts.forM assertFormula ⟨{ e with scopes }, session⟩ =
      .ok () ⟨{ e with scopes := ns.foldl (fun scopes n => scopes.assert n) scopes }, session⟩ := by
  induction found generalizing scopes with
  | nil => rfl
  | cons first _ ih =>
    obtain ⟨sort, asked, node, sort', found⟩ := first
    have asserted := assertFormula_of_found (s := ⟨{ e with scopes }, session⟩) sort asked found
    rw [List.forM, bind_ok asserted]
    exact ih _

theorem known_of_assumed (coherent : s.Coherent Enumerator.contract)
    (known : ∀ t ∈ assumptions, s.session.Has t) :
    ∃ ns, List.Forall₂ (fun t n => s.session.native t = .ok n ∧ s.session.natives[t]? = some n ∧
      s.engine.store.Knows n) assumptions ns := by
  induction assumptions with
  | nil => exact ⟨[], .nil⟩
  | cons t ts ih =>
    obtain ⟨ht, rest⟩ := List.forall_mem_cons.mp known
    obtain ⟨ns, assumed⟩ := ih rest
    obtain ⟨n, -, node, recorded, -, found, -⟩ := coherent.node ht
    have asked := Session.native_of_has (coherent.canonical.numbered t ht) recorded
    exact ⟨n :: ns, .cons ⟨asked, recorded, node, t.sort, found⟩ assumed⟩

/-- To check in a scope is to check with the nodes of the assumptions behind what is active. -/
theorem checkInScope_eq (sorts : ∀ t ∈ assumptions, t.sort = .bool)
    (assumed : List.Forall₂
      (fun t n => s.session.native t = .ok n ∧ s.session.natives[t]? = some n ∧
        s.engine.store.Knows n) assumptions ns) :
    ∃ scopes, scopes.active = s.engine.scopes.active ++ ns ∧
      checkInScope assumptions s = onEngine (Enumerator.check [] .idle)
        ⟨{ s.engine with scopes }, s.session⟩ := by
  refine ⟨ns.foldl (fun scopes n => scopes.assert n) (s.engine.scopes.push 1), ?_, ?_⟩
  · rw [active_assertAll, Scopes.active_push]
  · have found := (List.forall₂_and_left _ _ |>.mpr ⟨sorts, assumed⟩).imp
      fun _ _ known => (⟨known.1, known.2.1, known.2.2.2⟩ : _ ∧ _ ∧ _)
    have asserted := assertAll_of_found s.engine s.session found (s.engine.scopes.push 1)
    have pushed : (Engine.push 1 : Action (Solver Enumerator LogicSort Handle) Unit) s =
        .ok () ⟨{ s.engine with scopes := s.engine.scopes.push 1 }, s.session⟩ := rfl
    rw [checkInScope, bind_ok pushed, bind_ok asserted]
    rfl

end Scopes

section Checks

variable (underway : Underway s issued scopes) (known : ∀ t ∈ assumptions, s.session.Has t)
  (literals : assumptions.forM expectBooleanLiteral = .ok ())

include underway known literals

/-- Under assumptions a check ends as it does in a scope where they are asserted, with the same
model. -/
theorem checkSatAssuming_in_scope :
    (checkSatAssuming assumptions).outcome s = (checkInScope assumptions).outcome s ∧
      ((checkSatAssuming assumptions).finalState s).engine.model =
        ((checkInScope assumptions).finalState s).engine.model := by
  have coherent := underway.coherent
  obtain ⟨ns, assumed⟩ := known_of_assumed coherent known
  obtain ⟨scopes', active, nested⟩ := checkInScope_eq (sorts_of_assumptions literals) assumed
  have assuming := checkSatAssuming_of_literals literals (assumed.imp fun _ _ found => found.1)
  have truth : ∀ env, s.engine.store.Admits env → ∀ n ∈ ns, ∃ b,
      s.engine.store.eval env n = .ok (.bool b) := by
    intro env admits n hn
    obtain ⟨t, ht, -, recorded, -⟩ := exists_of_forall₂ assumed hn
    exact truth_of_booleanLiteral coherent (known t ht) (ok_of_forM literals t ht) recorded admits
  -- Either way the search is for a model of what is active and of the assumptions behind it.
  have same : ({ s.engine with scopes := scopes' } : Enumerator).search [] .idle =
      s.engine.search ns .idle := by
    rw [Enumerator.search, active, List.append_nil]
    rfl
  obtain ⟨outcome, model⟩ := Enumerator.checkSatAssuming_of_truths truth
  obtain ⟨outcome', model'⟩ := Enumerator.check_congr same
  constructor
  · calc
      (checkSatAssuming assumptions).outcome s
        = (Enumerator.checkSatAssuming ns).outcome s.engine := by
          rw [← outcome_onEngine _ _ (rememberAssumptions ns assumptions s.session)]
          exact outcome_congr assuming
      _ = (Enumerator.check [] .idle).outcome { s.engine with scopes := scopes' } :=
        outcome.trans outcome'.symm
      _ = (checkInScope assumptions).outcome s := by
          rw [← outcome_onEngine _ _ s.session]
          exact outcome_congr nested.symm
  · calc
      ((checkSatAssuming assumptions).finalState s).engine.model
        = ((Enumerator.checkSatAssuming ns).finalState s.engine).model := by
          rw [finalState_congr assuming]
          exact congrArg (fun s => s.engine.model) (finalState_onEngine _ _ _)
      _ = ((Enumerator.check [] .idle).finalState { s.engine with scopes := scopes' }).model :=
          model.trans model'.symm
      _ = ((checkInScope assumptions).finalState s).engine.model := by
          rw [finalState_congr nested]
          exact congrArg (fun s => s.engine.model) (finalState_onEngine _ _ _).symm

/-- Nothing is left of the check but a model, a core, the assumptions that it was made under and a
notice. -/
theorem finalState_checkSatAssuming : ∃ model core remembered notices,
    (checkSatAssuming assumptions).finalState s =
      ⟨{ s.engine with model, core }, { s.session with assumptions := remembered, notices }⟩ := by
  obtain ⟨ns, assumed⟩ := known_of_assumed underway.coherent known
  have assuming := checkSatAssuming_of_literals literals (assumed.imp fun _ _ found => found.1)
  have rechecks :
      Enumerator.Rechecked s.engine ((Enumerator.checkSatAssuming ns).finalState s.engine) :=
    (Enumerator.leads_checkSatAssuming s.engine ns).finalState
  obtain ⟨model, core, after⟩ := rechecks
  let remembered := rememberAssumptions ns assumptions s.session
  refine ⟨model, core, remembered.assumptions, remembered.notices, ?_⟩
  rw [finalState_congr assuming, show Engine.checkSatAssuming ns =
    Enumerator.checkSatAssuming ns from rfl, finalState_onEngine, after]
  rfl

theorem kept_checkSatAssuming :
    Kept Enumerator.contract s ((checkSatAssuming assumptions).finalState s) ∧
      Underway ((checkSatAssuming assumptions).finalState s) issued scopes := by
  have coherent := underway.coherent
  have genuine := fun t ht => coherent.canonical.toInterned.genuine (known t ht)
  have kept : Kept Enumerator.contract s ((checkSatAssuming assumptions).finalState s) :=
    Leads.finalState (keeps_checkSatAssuming Enumerator.contract_honoured coherent genuine)
  obtain ⟨model, core, remembered, notices, after⟩ :=
    finalState_checkSatAssuming underway known literals
  rw [after] at kept ⊢
  have tidy := underway.tidy
  exact ⟨kept, kept.coherent, fun u hu => (underway.genuine u hu).extend kept.extension,
    ⟨tidy.sorts, tidy.symbols, tidy.nodes⟩, underway.asserted.same kept.extension rfl⟩

end Checks

theorem veiled_rechecked (s : Solver Enumerator LogicSort Handle) (model : Option Assignment)
    (core : List Handle) (assumptions : Std.HashMap Handle Term) (notices : Array Notice) :
    Veiled Enumerator.Rechecked s
      ⟨{ s.engine with model, core }, { s.session with assumptions, notices }⟩ :=
  ⟨⟨model, core, rfl⟩, assumptions, notices, rfl⟩

theorem Veiled.checkSat (veiled : Veiled Enumerator.Rechecked s s') :
    Veiled Eq ((Request.command .checkSat).perform.finalState s)
      ((Request.command .checkSat).perform.finalState s') := by
  obtain ⟨rechecked, assumptions, notices, session⟩ := veiled
  rw [finalState_checkSat, finalState_checkSat, session]
  exact ⟨(finalState_congr (rechecked.check_eq [] .idle)).symm, assumptions, notices, rfl⟩

/-- A check under assumptions, all of them Boolean literals of the session, answers what a check
answers that is made in a new scope in which they are asserted in order, or fails alike, and leaves
the same model. It leaves nothing else behind but a core, the assumptions and a notice. So the
solver and one that has not made the check are not told apart by later checks. Whatever is done to
either of them, as long as in the end the same is asserted of the terms that there were, a check
answers the same and finds the same model. And as long as the same is done to both, and what the
last check has left is not read, they answer the same, and once both have been checked again, even
if that is read. -/
theorem assumptions_are_a_scope (history : History Enumerator.Unused s issued scopes)
    (known : ∀ t ∈ assumptions, s.session.Has t)
    (literals : assumptions.forM expectBooleanLiteral = .ok ())
    (after : (checkSatAssuming assumptions).finalState s = s') :
    (checkSatAssuming assumptions).outcome s = (checkInScope assumptions).outcome s ∧
    s'.engine.model = ((checkInScope assumptions).finalState s).engine.model ∧
    (∃ model core remembered notices,
      s' = ⟨{ s.engine with model, core }, { s.session with assumptions := remembered, notices }⟩) ∧
    (∀ t t' made made' asserted, Stretch (fun q => q ≠ .command .reset) 0 s issued
      scopes t made asserted →
      Stretch (fun q => q ≠ .command .reset) 0 s' issued scopes t' made' asserted →
      (∀ ts ∈ asserted, ∀ u ∈ ts, s.session.Has u) → ChecksAlike t t') ∧
    ∀ t t', Together (fun q => ¬ q.ReadsCheck) s s' t t' →
      (∀ q : Request, ¬ q.ReadsCheck → q.perform.outcome t' = q.perform.outcome t) ∧
      ∀ u u', Together (fun q => q ≠ .command .getUnsatCore)
        ((Request.command .checkSat).perform.finalState t)
          ((Request.command .checkSat).perform.finalState t') u u' →
        u'.engine = u.engine ∧
        ∀ q : Request, q ≠ .command .getUnsatCore → q.perform.outcome u' = q.perform.outcome u := by
  have underway := history.underway
  obtain ⟨outcome, model⟩ := checkSatAssuming_in_scope underway known literals
  have left := finalState_checkSatAssuming underway known literals
  obtain ⟨kept, underway'⟩ := kept_checkSatAssuming underway known literals
  rw [after] at model left kept underway'
  refine ⟨outcome, model, left, ?_, ?_⟩
  · intro t t' made made' asserted stretch stretch' own
    obtain ⟨kept₁, underway₁⟩ := stretch.underway (fun _ lasting => lasting) underway
    obtain ⟨kept₂, underway₂⟩ := stretch'.underway (fun _ lasting => lasting) underway'
    exact checksAlike_of_asserted underway.coherent kept₁
      (kept.trans Enumerator.contract_honoured kept₂)
      underway₁.asserted underway₂.asserted own
  · intro t t' together
    obtain ⟨_, _, _, _, rfl⟩ := left
    have unread : ∀ q : Request, ¬ q.ReadsCheck → q ≠ .command .getUnsatCore ∧
        (q.ReadsCheck → ∀ c : Command LogicSort Handle, ¬ c.ReadsCheck) := by
      refine fun q plain => ⟨?_, fun reads => absurd reads plain⟩
      rintro rfl
      exact plain trivial
    have veiled := together.veiled Enumerator.discreet_rechecked unread (veiled_rechecked s _ _ _ _)
    refine ⟨fun q plain => ?_, fun u u' together' => ?_⟩
    · obtain ⟨other, reads⟩ := unread q plain
      exact (overlooks_perform Enumerator.discreet_rechecked reads other t t'
        veiled).outcome_eq.symm
    · -- A check overwrites what an earlier check has left in the engine.
      have same :=
        together'.veiled Engine.discreet_eq (fun q other => ⟨other, fun _ _ => id⟩) veiled.checkSat
      refine ⟨same.1.symm, fun q other => ?_⟩
      exact (overlooks_perform Engine.discreet_eq (fun _ _ => id) other u u' same).outcome_eq.symm

/-- A symbol and its negation are assumed, which clash; the next check is as it would have been. -/
theorem assumptions_are_a_scope_negation :
    ∃ (s s' : Solver Enumerator LogicSort Handle) (x t : Term),
    History Enumerator.Unused s [x, t] [[]] ∧ x.kind = .symbol "x" ∧
      t.op = PrimOp.not ∧ t.children = [x] ∧ (checkSatAssuming [x, t]).finalState s = s' ∧
      (checkSatAssuming [x, t]).outcome s = (checkInScope [x, t]).outcome s ∧
      s'.engine.model = ((checkInScope [x, t]).finalState s).engine.model ∧
      s'.engine.scopes = s.engine.scopes ∧ ChecksAlike s s' ∧
      (Request.command (.assertFormula t)).perform.outcome s' =
        (Request.command (.assertFormula t)).perform.outcome s := by
  have unused := Enumerator.unused_new "m"
  obtain ⟨s, x, t, ⟨history, -, -⟩, -, ⟨hx, sort, kind, leaf⟩, ht, op, sort', -, children⟩ :=
    scene_negation unused unused {}
  have symbol : x.isSymbol = true := Term.isSymbol_iff.mpr ⟨"x", kind⟩
  have literals : [x, t].forM expectBooleanLiteral = .ok () := by
    rw [List.forM, booleanLiteral_of_symbol sort symbol leaf, bind_of_ok rfl, List.forM,
      booleanLiteral_of_negation sort' op children symbol]
    rfl
  have known : ∀ u ∈ [x, t], s.session.Has u := by simp [hx, ht]
  obtain ⟨outcome, model, ⟨_, _, _, _, left⟩, again, alongside⟩ :=
    assumptions_are_a_scope history known literals rfl
  have scopes := congrArg (fun s => s.engine.scopes) left
  have own : ∀ ts ∈ [([] : List Term)], ∀ u ∈ ts, s.session.Has u := by simp
  obtain ⟨same, -⟩ := alongside s _ .start
  exact ⟨s, _, x, t, history, kind, op, children, rfl, outcome, model, scopes,
    again _ _ _ _ _ .start .start own, same (.command (.assertFormula t)) id⟩

end Solver

end FormulaGraph

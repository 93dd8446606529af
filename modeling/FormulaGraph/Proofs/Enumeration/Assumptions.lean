import FormulaGraph.Proofs.Enumeration.Cores
import FormulaGraph.Proofs.Enumeration.Growth
import Mathlib.Algebra.Order.BigOperators.Group.List
import Mathlib.Algebra.Order.Group.Nat

/-!
Looking for a core never fails. If a search over assertions and assumptions found no model, a search
over the assertions and some of the assumptions comes to an end too: it has no more bits to count,
and every assignment that it tries is, as far as the query goes, one that the first search has
tried, so the assertions have truth values under it or one of them fails before. A check under
assumptions therefore ends as the check does that asserts them.
-/

namespace FormulaGraph

variable {store : NodeStore} {env env' : Assignment}
    {formulas ts us : List Handle} {slots : List Slot}
  {token : CancelToken}

namespace Search

theorem allHold_append (store : NodeStore) (env : Assignment) (ts us : List Handle) :
    allHold store env (ts ++ us) =
      (allHold store env ts >>= fun holds =>
        if holds then allHold store env us else pure false) := by
  induction ts with
  | nil => rfl
  | cons t ts ih =>
    rw [List.cons_append, allHold, allHold, ih]
    cases store.eval env t with
    | error e => rfl
    | ok x =>
      show (x.asBool >>= _) = (x.asBool >>= _) >>= _
      cases x.asBool with
      | error e => rfl
      | ok first => cases first <;> rfl

theorem allHold_congr (same : ∀ t ∈ formulas, store.eval env t = store.eval env' t) :
    allHold store env formulas = allHold store env' formulas := by
  induction formulas with
  | nil => rfl
  | cons t ts ih =>
    obtain ⟨first, rest⟩ := List.forall_mem_cons.mp same
    rw [allHold, allHold, first, ih rest]

/-- After a search that found no model, the formulas are tested under any values of the symbols, and
fail. -/
theorem allHold_of_run (h : run store formulas token = .ok .noModel) (admits : store.Admits env) :
    allHold store env formulas = .ok false := by
  obtain ⟨ts, slots, listed, laid, few, searched⟩ := run_ok h
  obtain ⟨below, -⟩ := NodeStore.symbolsOf_ok listed
  obtain ⟨n, small, env', assigned, agree⟩ :=
    exists_assign laid few (fun t ht => ((below t).mp ht).2) admits
  obtain ⟨env'', assigned', tested⟩ := fails_of_tryFrom searched n (Nat.zero_le n) small
  cases assigned.symm.trans assigned'
  rw [← tested]
  refine allHold_congr fun t ht => NodeStore.eval_congr fun u hu symbol => ?_
  exact agree u ((below u).mpr ⟨⟨t, ht, hu⟩, symbol⟩)

theorem symbolsOf_fewer (listed : store.symbolsOf formulas = .ok ts) {fewer : List Handle}
    (subset : fewer ⊆ formulas) : ∃ us, store.symbolsOf fewer = .ok us ∧ us.Sublist ts := by
  have known := NodeStore.symbolsOf_succeeds_iff.mp ⟨ts, listed⟩
  obtain ⟨us, listed'⟩ := NodeStore.symbolsOf_succeeds_iff.mpr fun t ht => known t (subset ht)
  obtain ⟨members, ordered⟩ := NodeStore.symbolsOf_ok listed
  obtain ⟨members', ordered'⟩ := NodeStore.symbolsOf_ok listed'
  have within : us ⊆ ts := by
    intro u hu
    obtain ⟨⟨t, ht, below⟩, symbol⟩ := (members' u).mp hu
    exact (members u).mpr ⟨⟨t, subset ht, below⟩, symbol⟩
  have subperm := List.subperm_of_subset ordered'.nodup within
  exact ⟨us, listed', List.sublist_of_subperm_of_pairwise subperm ordered' ordered⟩

theorem layout_fewer (laid : Slot.layout store 0 ts = .ok slots) (fewer : us.Sublist ts) :
    ∃ slots', Slot.layout store 0 us = .ok slots' ∧ Slot.total slots' ≤ Slot.total slots := by
  obtain ⟨names, counted⟩ := Slot.symbols_of_layout laid
  have countable : ∀ t ∈ ts, ∃ node sort bits, store.find? t = some (node, sort) ∧
      sort.searchBits = .ok bits := by
    rw [← names]
    refine List.forall_mem_map.mpr fun slot hs => ?_
    obtain ⟨node, found⟩ := Slot.sort_of_layout laid hs
    exact ⟨node, slot.sort, slot.bits, found, counted slot hs⟩
  obtain ⟨_, laid', total⟩ := Slot.layout_succeeds countable 0
  cases laid.symm.trans laid'
  obtain ⟨slots', laid', total'⟩ :=
    Slot.layout_succeeds (fun t ht => countable t (fewer.subset ht)) 0
  exact ⟨slots', laid', by
    rw [total, total']; exact (fewer.map _).sum_le_sum fun _ _ => Nat.zero_le _⟩

/-- A search over the first formulas and some of those behind them comes to an end if the search
over all of them found no model, and those that are kept have truth values. -/
theorem run_fewer (h : run store (ts ++ us) token = .ok .noModel)
    {vs : List Handle} (fewer : vs ⊆ us)
    (truth : ∀ env, store.Admits env → ∀ t ∈ vs, ∃ b, store.eval env t = .ok (.bool b)) :
    ∃ finding, run store (ts ++ vs) .idle = .ok finding := by
  obtain ⟨all, slots, listed, laid, few, -⟩ := run_ok h
  have subset : ts ++ vs ⊆ ts ++ us := List.append_subset.mpr
    ⟨List.subset_append_left ts us, List.subset_append_of_subset_right ts fewer⟩
  obtain ⟨_, listed', sublist⟩ := symbolsOf_fewer listed subset
  obtain ⟨slots', laid', less⟩ := layout_fewer laid sublist
  have few := less.trans few
  rw [run_of_few listed' laid' few]
  refine tryFrom_succeeds fun n => ?_
  obtain ⟨env, assigned⟩ :=
    Slot.assign_answers (Slot.symbols_of_layout laid').2 (narrow_of_few few) n
  have admits := Slot.admits_of_assign (fun slot hs => Slot.sort_of_layout laid' hs) assigned
  have tested := allHold_of_run h admits
  rw [allHold_append] at tested
  obtain ⟨holds, first, -⟩ := ok_of_bind tested
  refine ⟨env, ?_⟩
  -- Only where the first formulas hold is anything asked of the others.
  rw [allHold_append, first]
  cases holds with
  | true =>
    obtain ⟨b, rest⟩ := allHold_succeeds (truth env admits)
    exact ⟨b, assigned, rest⟩
  | false => exact ⟨false, assigned, rfl⟩

end Search

namespace Enumerator

open FormulaGraph.Action

variable {e : Enumerator} {ns : List Handle}

theorem shrink_of_truths (none : e.search ns .idle = .ok .noModel)
    (truth : ∀ env, e.store.Admits env → ∀ n ∈ ns, ∃ b, e.store.eval env n = .ok (.bool b)) :
    ∃ core, Search.shrink e.isUnsat [] ns = .ok core := by
  refine Search.shrink_succeeds fun ms fewer => ?_
  obtain ⟨finding, searched⟩ := Search.run_fewer none fewer.subset fun env admits n hn =>
    truth env admits n (fewer.subset hn)
  have searched : e.search ms .idle = .ok finding := searched
  rw [isUnsat, searched]
  cases finding with
  | noModel => exact ⟨true, rfl⟩
  | model | cutShort => exact ⟨false, rfl⟩

theorem checkSatAssuming_of_check {v : Verdict} {e' : Enumerator}
    (checked : check ns .idle e = .ok v e')
    (truth : ∀ env, e.store.Admits env → ∀ n ∈ ns, ∃ b, e.store.eval env n = .ok (.bool b)) :
    ∃ core, checkSatAssuming ns e = .ok v { e' with core } := by
  have led := (leads_check e ns .idle).answer checked
  cases v with
  | sat | unknown => exact ⟨e'.core, bind_ok checked⟩
  | unsat =>
    obtain ⟨⟨model, rfl⟩, found⟩ := led
    have none : e.search ns .idle = .ok .noModel := by
      cases found with
      | unsat none => exact none
    obtain ⟨core, shrunk⟩ := shrink_of_truths none truth
    refine ⟨core, (bind_ok checked).trans ?_⟩
    show (Action.ofExcept (Search.shrink e.isUnsat [] ns) >>= _) _ = _
    rw [shrunk]
    rfl

/-- A check under assumptions that are truth values ends as a check does, with the same model. -/
theorem checkSatAssuming_of_truths
    (truth : ∀ env, e.store.Admits env → ∀ n ∈ ns, ∃ b, e.store.eval env n = .ok (.bool b)) :
    (checkSatAssuming ns).outcome e = (check ns .idle).outcome e ∧
      ((checkSatAssuming ns).finalState e).model = ((check ns .idle).finalState e).model := by
  cases checked : check ns .idle e with
  | error x e' =>
    have assumed : checkSatAssuming ns e = .error x e' := bind_error checked
    rw [outcome_error assumed, outcome_error checked, finalState_error assumed,
      finalState_error checked]
    exact ⟨rfl, rfl⟩
  | ok v e' =>
    obtain ⟨core, assumed⟩ := checkSatAssuming_of_check checked truth
    rw [outcome_ok assumed, outcome_ok checked, finalState_ok assumed, finalState_ok checked]
    exact ⟨rfl, rfl⟩

end Enumerator

end FormulaGraph

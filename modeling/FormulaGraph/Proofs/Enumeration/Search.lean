import FormulaGraph.Enumeration.Search
import FormulaGraph.Proofs.Enumeration.Eval

/-!
A search is plain, and a model that it finds gives every symbol an element of its sort.
-/

namespace FormulaGraph

variable {store : NodeStore}

theorem NodeStore.plainly_find (store : NodeStore) (t : Handle) : Plainly (store.find t) := by
  unfold find
  split
  · exact .ok _
  · exact .error trivial

theorem NodeStore.find_ok {t : Handle} {entry : Node × LogicSort}
    (h : store.find t = .ok entry) : store.find? t = some entry := by
  unfold find at h
  split at h
  · cases h
    assumption
  · cases h

theorem NodeStore.plainly_symbolsOf (store : NodeStore) (roots : List Handle) :
    Plainly (store.symbolsOf roots) := by
  unfold symbolsOf
  split
  · exact .error trivial
  · exact .ok _

namespace Slot

theorem sort_of_layout {offset : Nat} {ts : List Handle} {slots : List Slot}
    (h : layout store offset ts = .ok slots) {slot : Slot} (hs : slot ∈ slots) :
    ∃ node, store.find? slot.symbol = some (node, slot.sort) := by
  induction ts generalizing offset slots with
  | nil =>
    cases h
    exact absurd hs List.not_mem_nil
  | cons t ts ih =>
    rw [layout] at h
    obtain ⟨⟨node, sort⟩, found, h⟩ := ok_of_bind h
    obtain ⟨bits, _, h⟩ := ok_of_bind h
    obtain ⟨rest, laid, h⟩ := ok_of_bind h
    cases h
    cases List.mem_cons.mp hs with
    | inl same =>
      rw [same]
      exact ⟨node, NodeStore.find_ok found⟩
    | inr hs => exact ih laid hs

theorem plainly_layout (store : NodeStore) (offset : Nat) (ts : List Handle) :
    Plainly (layout store offset ts) := by
  induction ts generalizing offset with
  | nil => exact .ok []
  | cons t ts ih =>
    rw [layout]
    exact .bind (store.plainly_find t) fun entry => .bind (entry.2.plainly_searchBits) fun _ =>
      .bind (ih _) fun _ => .pure _

theorem plainly_assign (slots : List Slot) (counter : Nat) : Plainly (assign slots counter) :=
  .bind (.mapM fun slot _ => .bind (slot.sort.plainly_decode _) fun _ => .pure _) fun _ => .pure _

theorem admits_of_assign {slots : List Slot} {counter : Nat} {env : Assignment}
    (laid : ∀ slot ∈ slots, ∃ node, store.find? slot.symbol = some (node, slot.sort))
    (h : assign slots counter = .ok env) : store.Admits env := by
  obtain ⟨values, assigned, h⟩ := ok_of_bind h
  cases h
  intro t x given
  rw [Option.map_eq_some_iff] at given
  obtain ⟨⟨symbol, y⟩, found, same⟩ := given
  cases same
  have matched : symbol = t := by simpa using List.find?_some found
  obtain ⟨slot, hs, valued⟩ :=
    exists_of_forall₂ (forall₂_of_mapM assigned) (List.mem_of_find?_eq_some found)
  obtain ⟨z, decoded, valued⟩ := ok_of_bind valued
  cases valued
  obtain ⟨node, stored⟩ := laid slot hs
  exact ⟨node, slot.sort, matched ▸ stored, LogicSort.holds_decode slot.sort decoded⟩

end Slot

namespace Search

variable {formulas : List Handle} {slots : List Slot} {token : CancelToken} {env : Assignment}

theorem plainly_allHold (store : NodeStore) (env : Assignment) (ts : List Handle) :
    Plainly (allHold store env ts) := by
  induction ts with
  | nil => exact .ok true
  | cons t ts ih =>
    rw [allHold]
    exact .bind (store.plainly_eval env t) fun x =>
      .bind x.plainly_asBool fun _ => .ite ih (.pure _)

theorem plainly_tryFrom (store : NodeStore) (formulas : List Handle) (slots : List Slot)
    (token : CancelToken) (limit counter : Nat) :
    Plainly (tryFrom store formulas slots token limit counter) := by
  induction counter using tryFrom.induct token limit with
  | case1 counter below raised =>
    rw [tryFrom, if_pos below, if_pos raised]
    exact .ok _
  | case2 counter below idle ih =>
    rw [tryFrom, if_pos below, if_neg idle]
    exact .bind (Slot.plainly_assign slots counter) fun env =>
      .bind (plainly_allHold store env formulas) fun _ => .ite (.pure _) ih
  | case3 counter done =>
    rw [tryFrom, if_neg done]
    exact .ok _

/-- A model is among the assignments that were tried, and the formulas hold under it. -/
theorem assign_of_tryFrom {limit counter : Nat}
    (h : tryFrom store formulas slots token limit counter = .ok (.model env)) :
    ∃ n, Slot.assign slots n = .ok env ∧ allHold store env formulas = .ok true := by
  induction counter using tryFrom.induct token limit with
  | case1 counter below raised =>
    rw [tryFrom, if_pos below, if_pos raised] at h
    cases h
  | case2 counter below idle ih =>
    rw [tryFrom, if_pos below, if_neg idle] at h
    obtain ⟨env', assigned, h⟩ := ok_of_bind h
    obtain ⟨holds, tested, h⟩ := ok_of_bind h
    cases holds with
    | true =>
      cases h
      exact ⟨counter, assigned, tested⟩
    | false => exact ih h
  | case3 counter done =>
    rw [tryFrom, if_neg done] at h
    cases h

theorem plainly_run (store : NodeStore) (formulas : List Handle) (token : CancelToken) :
    Plainly (run store formulas token) :=
  .bind (store.plainly_symbolsOf formulas) fun ts => .bind (Slot.plainly_layout store 0 ts)
    fun _ => .bind (plainly_within _ _) fun _ => .guard trivial (plainly_tryFrom _ _ _ _ _ _)

theorem admits_of_run (h : run store formulas token = .ok (.model env)) : store.Admits env := by
  obtain ⟨ts, _, h⟩ := ok_of_bind h
  obtain ⟨slots, laid, h⟩ := ok_of_bind h
  obtain ⟨bits, _, h⟩ := ok_of_bind h
  dsimp only at h
  split at h
  · cases h
  · obtain ⟨n, assigned, _⟩ := assign_of_tryFrom h
    exact Slot.admits_of_assign (fun slot hs => Slot.sort_of_layout laid hs) assigned

theorem plainly_shrink {unsat : List Handle → Except Error Bool}
    (plain : ∀ ts, Plainly (unsat ts)) (kept ts : List Handle) :
    Plainly (shrink unsat kept ts) := by
  induction ts generalizing kept with
  | nil => exact .ok kept
  | cons t ts ih =>
    rw [shrink]
    exact .bind (plain _) fun _ => .ite (ih kept) (ih _)

end Search

end FormulaGraph

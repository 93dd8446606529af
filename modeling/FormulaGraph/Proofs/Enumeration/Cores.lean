import FormulaGraph.Proofs.Enumeration.Checks

/-!
Cores of the enumerating engine. The assumptions of a check that finds no model are dropped one
after the other, as long as those that are left have no model either. The fewer formulas, the more
models they have, so each one that stays is needed to the end.
-/

namespace FormulaGraph

namespace Search

variable {unsat : List Handle → Except Error Bool} {Clash Joint : List Handle → Prop}
  {kept rest core : List Handle}

/-- What is left of formulas that clash are some of them that clash, and no longer do without any
one. -/
theorem shrink_minimal (yes : ∀ ts, unsat ts = .ok true → Clash ts)
    (no : ∀ ts, unsat ts = .ok false → Joint ts)
    (fewer : ∀ ts us, ts.Sublist us → Joint us → Joint ts)
    (clash : Clash (kept ++ rest)) (needed : ∀ i < kept.length, Joint (kept.eraseIdx i ++ rest))
    (done : shrink unsat kept rest = .ok core) :
    core.Sublist (kept ++ rest) ∧ Clash core ∧ ∀ i < core.length, Joint (core.eraseIdx i) := by
  induction rest generalizing kept with
  | nil =>
    cases done
    simp only [List.append_nil] at clash needed ⊢
    exact ⟨.refl _, clash, needed⟩
  | cons t rest ih =>
    rw [shrink] at done
    obtain ⟨dropped, tested, done⟩ := ok_of_bind done
    cases dropped with
    | true =>
      obtain ⟨some_, minimal⟩ := ih (yes _ tested)
        (fun i hi => fewer _ _ (.append_left (List.sublist_cons_self t rest) _) (needed i hi)) done
      exact ⟨some_.trans (.append_left (List.sublist_cons_self t rest) kept), minimal⟩
    | false =>
      rw [List.append_cons] at clash ⊢
      refine ih clash (fun i hi => ?_) done
      rw [List.length_append, List.length_singleton] at hi
      cases Nat.lt_succ_iff_lt_or_eq.mp hi with
      | inl earlier =>
        rw [List.eraseIdx_append_of_lt_length earlier, List.append_assoc]
        exact needed i earlier
      | inr last =>
        rw [last, List.eraseIdx_append_of_length_le (Nat.le_refl _), Nat.sub_self]
        simpa using no _ tested

theorem shrink_succeeds (tested : ∀ ts, ts.Sublist (kept ++ rest) → ∃ b, unsat ts = .ok b) :
    ∃ core, shrink unsat kept rest = .ok core := by
  induction rest generalizing kept with
  | nil => exact ⟨kept, rfl⟩
  | cons t rest ih =>
    have fewer : (kept ++ rest).Sublist (kept ++ t :: rest) :=
      .append_left (List.sublist_cons_self t rest) kept
    obtain ⟨dropped, test⟩ := tested _ fewer
    rw [shrink, test]
    cases dropped with
    | true => exact ih fun ts hts => tested ts (hts.trans fewer)
    | false => exact ih fun ts hts => tested ts (List.append_cons kept t rest ▸ hts)

end Search

namespace Enumerator

open FormulaGraph.Action

variable {e e' : Enumerator} {ts us ns : List Handle}

/-- Under any values of the symbols, an active assertion or one of these formulas fails. -/
def Clash (e : Enumerator) (ts : List Handle) : Prop :=
  ∀ env, e.store.Admits env → ∃ t ∈ e.scopes.active ++ ts, e.store.eval env t = .ok (.bool false)

/-- The active assertions and these formulas hold together under some values of the symbols. -/
def Joint (e : Enumerator) (ts : List Handle) : Prop :=
  ∃ env, e.store.Admits env ∧ ∀ t ∈ e.scopes.active ++ ts, e.store.eval env t = .ok (.bool true)

theorem Joint.fewer (joint : e.Joint us) (fewer : ts.Sublist us) : e.Joint ts := by
  obtain ⟨env, admits, holds⟩ := joint
  exact ⟨env, admits, fun t ht => holds t ((fewer.append_left e.scopes.active).subset ht)⟩

theorem clash_of_isUnsat (tested : e.isUnsat ts = .ok true) : e.Clash ts := by
  obtain ⟨finding, searched, decided⟩ := ok_of_bind tested
  cases finding with
  | noModel => exact fun env admits => Search.fails_of_run searched admits
  | model | cutShort => cases decided

theorem joint_of_isUnsat (tested : e.isUnsat ts = .ok false) : e.Joint ts := by
  obtain ⟨finding, searched, decided⟩ := ok_of_bind tested
  cases finding with
  | model env => exact ⟨env, Search.admits_of_run searched, Search.holds_of_run searched⟩
  | noModel => cases decided
  | cutShort =>
    obtain ⟨_, _, -, -, -, cut⟩ := Search.run_ok searched
    exact absurd cut Search.idle_ne_cutShort

/-- A core of assumptions: some of them that clash with the assertions, each of which is needed for
that. -/
structure IsCore (e : Enumerator) (ns core : List Handle) : Prop where
  sublist : core.Sublist ns
  clash : e.Clash core
  needed : ∀ i < core.length, e.Joint (core.eraseIdx i)

theorem isCore_of_shrink (clash : e.Clash ns) {core : List Handle}
    (done : Search.shrink e.isUnsat [] ns = .ok core) : e.IsCore ns core := by
  have none : ∀ i < ([] : List Handle).length, e.Joint (([] : List Handle).eraseIdx i ++ ns) :=
    fun i hi => absurd hi (Nat.not_lt_zero i)
  obtain ⟨sublist, clash, needed⟩ := Search.shrink_minimal (fun _ => clash_of_isUnsat)
    (fun _ => joint_of_isUnsat) (fun _ _ fewer joint => joint.fewer fewer) clash none done
  exact ⟨sublist, clash, needed⟩

theorem core_of_checkSatAssuming (e : Enumerator) (ns : List Handle) :
    (∃ e', checkSatAssuming ns e = .ok .unsat e' ∧ Rechecked e e' ∧ e.IsCore ns e'.core) ∨
      ∃ e', Forgotten e e' ∧ ((∃ v, v ≠ .unsat ∧ checkSatAssuming ns e = .ok v e') ∨
        ∃ x, checkSatAssuming ns e = .error x e') := by
  have led := leads_check e ns .idle
  cases checked : check ns .idle e with
  | error x e₁ => exact .inr ⟨e₁, (led.failure checked).1, .inr ⟨x, Action.bind_error checked⟩⟩
  | ok v e₁ =>
    obtain ⟨forgotten, found⟩ := led.answer checked
    cases v with
    | sat => exact .inr ⟨e₁, forgotten, .inl ⟨.sat, nofun, Action.bind_ok checked⟩⟩
    | unknown => exact .inr ⟨e₁, forgotten, .inl ⟨.unknown, nofun, Action.bind_ok checked⟩⟩
    | unsat =>
      have same : e₁.isUnsat = e.isUnsat := by
        obtain ⟨model, rfl⟩ := forgotten
        rfl
      have goes :
        checkSatAssuming ns e = (Action.ofExcept (Search.shrink e.isUnsat [] ns) >>= fun core => do
          modify fun e => { e with core }
          return Verdict.unsat) e₁ := by
        rw [← same]
        exact Action.bind_ok checked
      cases shrunk : Search.shrink e.isUnsat [] ns with
      | error x =>
        refine .inr ⟨e₁, forgotten, .inr ⟨x, ?_⟩⟩
        rw [goes, shrunk]
        rfl
      | ok core =>
        refine .inl ⟨{ e₁ with core }, ?_, ?_, isCore_of_shrink (fun env => found.fails) shrunk⟩
        · rw [goes, shrunk]
          rfl
        · exact forgotten.rechecked.trans ⟨_, _, rfl⟩

theorem checkSatAssuming_succeeds
    (ends : ∀ ts, ts.Sublist ns → ∃ finding, e.search ts .idle = .ok finding) :
    Succeeds (checkSatAssuming ns) e fun _ _ => True := by
  obtain ⟨finding, searched⟩ := ends ns (.refl ns)
  obtain ⟨v, e₁, checked, -⟩ := check_succeeds searched
  obtain ⟨model, rfl⟩ := ((leads_check e ns .idle).answer checked).1
  have tested : ∀ ts, ts.Sublist ([] ++ ns) → ∃ b, e.isUnsat ts = .ok b := fun ts fewer => by
    obtain ⟨finding, searched⟩ := ends ts fewer
    rw [isUnsat, searched]
    cases finding with
    | noModel => exact ⟨true, rfl⟩
    | model | cutShort => exact ⟨false, rfl⟩
  obtain ⟨core, shrunk⟩ := Search.shrink_succeeds tested
  cases v with
  | sat | unknown => exact ⟨_, _, Action.bind_ok checked, trivial⟩
  | unsat =>
    refine ⟨.unsat, { e with model, core }, (Action.bind_ok checked).trans ?_, trivial⟩
    show (Action.ofExcept (Search.shrink e.isUnsat [] ns) >>= _) _ = _
    rw [shrunk]
    rfl

end Enumerator

end FormulaGraph

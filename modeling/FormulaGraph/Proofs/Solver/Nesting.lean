import FormulaGraph.Proofs.Solver.LaterChecks
import FormulaGraph.Proofs.Solver.Verdicts

/-!
Scopes nest. What happens between entering some scopes and leaving as many, without ever leaving one
of them before, leaves what was asserted outside of them as it was; the terms that were made inside
stay.
-/

namespace FormulaGraph

variable {inner outer : List (List Term)} {q : Request} {issued made : List Term}
    {scopes asserted : List (List Term)}

/-- The request drops nothing of what is asserted but by leaving scopes. -/
def Request.KeepsScopes (q : Request) : Prop := q ≠ .command .reset ∧ q ≠ .command .resetAssertions

/-- As long as more scopes are left than there are outside, a request is about the inner ones. -/
theorem Request.KeepsScopes.asserts_append (keeps : q.KeepsScopes) (within : inner ≠ [])
    (deeper : outer.length < (q.asserts (inner ++ outer)).length) :
    ∃ inner', inner' ≠ [] ∧ q.asserts (inner ++ outer) = inner' ++ outer := by
  obtain ⟨current, rest, rfl⟩ := List.exists_cons_of_ne_nil within
  cases q with
  | command c =>
    cases c with
    | assertFormula t => exact ⟨(current ++ [t]) :: rest, List.cons_ne_nil _ _, rfl⟩
    | push levels =>
      exact ⟨List.replicate levels.toNat [] ++ current ::
        rest, by simp, (List.append_assoc _ _ _).symm⟩
    | pop levels =>
      have few : levels.toNat < (current :: rest).length := by
        simp only [Request.asserts, List.length_drop, List.length_append] at deeper
        omega
      exact ⟨(current :: rest).drop levels.toNat, List.drop_eq_nil_iff.not.mpr (Nat.not_le.mpr few),
        List.drop_append_of_le_length (Nat.le_of_lt few)⟩
    | reset => exact absurd rfl keeps.1
    | resetAssertions => exact absurd rfl keeps.2
    | _ => exact ⟨current :: rest, List.cons_ne_nil _ _, rfl⟩
  | _ => exact ⟨current :: rest, List.cons_ne_nil _ _, rfl⟩

namespace Solver

open FormulaGraph.Action

variable {s s' t t' : Solver Enumerator LogicSort Handle} {floor : Nat} {levels : UInt64}

theorem Stretch.asserts_append
    (stretch : Stretch Request.KeepsScopes floor s issued (inner ++ outer) t made asserted)
    (begins : Underway s issued (inner ++ outer)) (within : inner ≠ [])
    (deep : outer.length ≤ floor) :
    ∃ inner', inner' ≠ [] ∧ asserted = inner' ++ outer := by
  induction stretch with
  | start => exact ⟨inner, within, rfl⟩
  | @served t t' issued' issued'' asserted before q keeps ok step above ih =>
    obtain ⟨inner', within', rfl⟩ := ih
    obtain ⟨-, underway⟩ := before.underway (fun _ keeps => keeps.1) begins
    obtain ⟨-, underway'⟩ := underway.served step keeps.1
    cases ok with
    | false => exact ⟨inner', within', rfl⟩
    | true =>
      -- The engine has more scopes to leave than there are outside, so an inner one is left over.
      refine keeps.asserts_append within' ?_
      have length := underway'.asserted.length_eq
      rw [if_pos rfl] at length
      omega
  | aside _ _ ih => exact ih

theorem push_done (levels : UInt64) (s : Solver Enumerator LogicSort Handle) :
    (Request.command (.push levels)).perform s =
      .ok .done ⟨{ s.engine with scopes := s.engine.scopes.push levels.toNat }, s.session⟩ := rfl

theorem pop_done (enough : levels.toNat ≤ s.engine.scopes.depth) :
    (Request.command (.pop levels)).perform s = .ok .done
      ⟨{ s.engine with scopes := Nat.repeat Scopes.leave levels.toNat s.engine.scopes },
        s.session⟩ := by
  have run : Enumerator.pop levels s.engine =
      .ok () { s.engine with scopes := Nat.repeat Scopes.leave levels.toNat s.engine.scopes } := by
    rw [Enumerator.pop, Scopes.pop?, if_pos enough]
  exact bind_ok (onEngine_ok run s.session)

theorem pop_refused (few : s.engine.scopes.depth < levels.toNat) :
    (Request.command (.pop levels)).perform s = .error (.usage (.tooFewScopes levels)) s := by
  have run : Enumerator.pop levels s.engine = .error (.usage (.tooFewScopes levels)) s.engine := by
    rw [Enumerator.pop, Scopes.pop?, if_neg (Nat.not_le.mpr few)]
  exact bind_error (onEngine_error run s.session)

theorem Underway.done (underway : Underway s issued scopes) (done : q.perform s = .ok .done s')
    (same : s'.session = s.session) (none : q.terms = []) (lasting : q ≠ .command .reset) :
    Kept Enumerator.contract s s' ∧ Underway s' issued (q.asserts scopes) := by
  have step := underway.served (.answered (by simp [none]) done) lasting
  rw [stillIssued, if_pos (congrArg Session.number same)] at step
  simpa only [Answer.given, List.append_nil, ↓reduceIte] using step

section TruthValues

/-- A check of truth values decides: it finds a model just if all of them are high. -/
theorem sat_iff_high (history : History Enumerator.Unused s issued scopes)
    (values : ∀ t ∈ scopes.flatten, ∃ b, t.kind = .value (.bool b)) :
    ∃ v, (Request.command .checkSat).perform.outcome s = .ok (.verdict v) ∧ v ≠ .unknown ∧
      (v = .sat ↔ ∀ t ∈ scopes.flatten, t.kind = .value (.bool true)) := by
  have underway := history.underway
  obtain ⟨v, s', checked, -⟩ := check_succeeds underway.coherent underway.asserted
    (underway.asserted.enumerable_values underway.coherent values)
  have done : (Request.command .checkSat).perform s = .ok (.verdict v) s' := map_ok checked
  obtain ⟨kept, -, _, same, decides, sat, unsat⟩ :=
    decision_right underway.coherent underway.tidy underway.asserted
      (fun _ hu => absurd hu List.not_mem_nil) rfl done
  cases same
  rw [List.append_nil] at sat unsat
  have valued : ∀ t ∈ scopes.flatten, ∀ b, t.kind = .value (.bool b) → ∀ env,
      s'.valueUnder env t = .ok (.bool b) := by
    intro t ht b kind env
    obtain ⟨ts, hts, ht⟩ := List.mem_flatten.mp ht
    exact valueUnder_bool kept.coherent
      (kept.extension.has t (underway.asserted.known ts hts t ht).1) kind
  refine ⟨v, outcome_ok done, decides, fun found t ht => ?_, fun high => ?_⟩
  · obtain ⟨env, -, -, holds⟩ := sat found
    obtain ⟨b, kind⟩ := values t ht
    cases (valued t ht b kind env).symm.trans (holds t ht).2.2
    exact kind
  · exact eq_sat_of_high decides unsat (NodeStore.admits_none _)
      fun t ht => valued t ht true (high t ht) _

theorem sat_of_high (history : History Enumerator.Unused s issued scopes)
    (high : ∀ t ∈ scopes.flatten, t.kind = .value (.bool true)) :
    (Request.command .checkSat).perform.outcome s = .ok (.verdict .sat) := by
  obtain ⟨v, checked, -, sat⟩ := sat_iff_high history fun t ht => ⟨true, high t ht⟩
  cases sat.mpr high
  exact checked

theorem unsat_of_low (history : History Enumerator.Unused s issued scopes)
    (values : ∀ t ∈ scopes.flatten, ∃ b, t.kind = .value (.bool b)) {f : Term}
    (there : f ∈ scopes.flatten)
    (low : f.kind = .value (.bool false)) :
    (Request.command .checkSat).perform.outcome s = .ok (.verdict .unsat) := by
  obtain ⟨v, checked, decides, sat⟩ := sat_iff_high history values
  cases v with
  | unsat => exact checked
  | unknown => exact absurd rfl decides
  | sat => cases low.symm.trans (sat.mp rfl f there)

theorem Stretch.answer (stretch : Stretch Request.KeepsScopes floor s issued scopes t made asserted)
    (begins : Underway s issued scopes) (q : Request) (keeps : q.KeepsScopes)
    (available : ∀ u ∈ q.terms, t.Available made u) {answer : Answer LogicSort Term}
    (done : q.perform t = .ok answer t') (lasts : t'.session.number = t.session.number)
    (above : floor < (q.asserts asserted).length) :
    Stretch Request.KeepsScopes floor s issued scopes t' (made ++ answer.given)
      (q.asserts asserted) := by
  have step : Served q true t made t' _ := .answered available done
  obtain ⟨-, underway⟩ := stretch.underway (fun _ keeps => keeps.1) begins
  have length : (q.asserts asserted).length = _ :=
    (underway.served step keeps.1).2.asserted.length_eq
  have longer := stretch.served q keeps step (by omega)
  rw [stillIssued, if_pos lasts] at longer
  exact longer

theorem exists_asserted {current : List Term} {outer : List (List Term)}
    (history : History Enumerator.Unused s issued (current :: outer)) (b : Bool) : ∃ f t,
      Stretch Request.KeepsScopes s.engine.scopes.depth s issued (current :: outer) t
        (issued ++ [f]) ((current ++ [f]) :: outer) ∧
      History Enumerator.Unused t (issued ++ [f]) ((current ++ [f]) :: outer) ∧
      f.kind = .value (.bool b) ∧ t.engine.scopes.depth = s.engine.scopes.depth := by
  have underway := history.underway
  have length := underway.asserted.length_eq
  obtain ⟨f, s₁, run, kept, has, sort, kind⟩ := makeBool_succeeds underway.coherent b
  obtain ⟨n, -, asserts⟩ := assertFormula_succeeds kept.coherent has sort
  have lasts := kept.extension.number
  have available : ∀ u ∈ [f], s₁.Available (issued ++ [f]) u := fun u hu a below _ =>
    ⟨u, List.mem_append_right _ hu, below⟩
  have first : History Enumerator.Unused s₁ (issued ++ [f]) (current :: outer) :=
    history.answer (.makeBool b) nofun (map_ok run) lasts
  have second := first.answer (.command (.assertFormula f)) available (bind_ok asserts) rfl
  have stretch : Stretch Request.KeepsScopes s.engine.scopes.depth s issued (current :: outer) s₁
      (issued ++ [f]) (current :: outer) :=
    Stretch.start.answer underway (.makeBool b) ⟨nofun, nofun⟩ nofun (map_ok run) lasts
      (Nat.lt_of_succ_le (Nat.le_of_eq length.symm))
  have stretch' := stretch.answer underway (.command (.assertFormula f)) ⟨nofun, nofun⟩ available
    (bind_ok asserts) rfl (Nat.lt_of_succ_le (Nat.le_of_eq length.symm))
  have nothing : issued ++ [f] ++ (Answer.done : Answer LogicSort Term).given = issued ++ [f] :=
    List.append_nil _
  rw [nothing] at second stretch'
  refine ⟨f, _, stretch', second, kind, ?_⟩
  have length' : (current :: outer).length = _ := second.underway.asserted.length_eq
  exact Nat.succ.inj (length'.symm.trans length)

end TruthValues

/-- Once as many scopes have been left as were entered, it is as before. -/
theorem scopes_restored (underway : Underway s issued scopes) (opens : 0 < levels)
    (pushed : (Request.command (.push levels)).perform s = .ok .done s')
    (inside : Stretch Request.KeepsScopes (s.engine.scopes.depth + levels.toNat) s' issued
      (List.replicate levels.toNat [] ++ scopes) t made asserted)
    (ends : t.engine.scopes.depth = s.engine.scopes.depth + levels.toNat) :
    ∃ t', (Request.command (.pop levels)).perform t = .ok .done t' ∧ t'.session = t.session ∧
      Kept Enumerator.contract s t ∧ Kept Enumerator.contract t t' ∧ Underway t' made scopes := by
  have honoured := Enumerator.contract_honoured
  have positive : 0 < levels.toNat := UInt64.lt_iff_toNat_lt.mp opens
  cases (push_done levels s).symm.trans pushed
  obtain ⟨kept, underway'⟩ := underway.done (push_done levels s) rfl rfl nofun
  obtain ⟨kept', underway''⟩ := inside.underway (fun _ keeps => keeps.1) underway'
  have length := underway.asserted.length_eq
  have length'' := underway''.asserted.length_eq
  have within : List.replicate levels.toNat ([] : List Term) ≠ [] := by
    rw [ne_eq, List.replicate_eq_nil_iff]
    omega
  obtain ⟨inner, -, rfl⟩ := inside.asserts_append underway' within (by omega)
  have count : inner.length = levels.toNat := by
    rw [List.length_append] at length''
    omega
  have popped : (Request.command (.pop levels)).perform t = _ := pop_done (by omega)
  obtain ⟨kept'', after⟩ := underway''.done popped rfl rfl nofun
  have back : (Request.command (.pop levels)).asserts (inner ++ scopes) = scopes := by
    rw [Request.asserts, ← count, List.drop_left]
  rw [back] at after
  exact ⟨_, popped, rfl, kept.trans honoured kept', kept'', after⟩

/-- Whatever is made, asserted, checked and refused between entering some scopes and leaving as
many, if no more of them are left before and nothing is reset, afterwards the scopes are as they
were: just what was asserted before is active, and a check answers as a check before would have
answered, or fails alike, and finds the same model. The terms that were made meanwhile stay in the
session, with their nodes and their values. Scopes are left as long as there are enough of them;
otherwise the request is refused and changes nothing. -/
theorem scopes_nest (history : History Enumerator.Unused s issued scopes) :
    (∀ (levels : UInt64) s' t made asserted, 0 < levels →
      (Request.command (.push levels)).perform s = .ok .done s' →
      Stretch Request.KeepsScopes (s.engine.scopes.depth + levels.toNat) s' issued
        (List.replicate levels.toNat [] ++ scopes) t made asserted →
      t.engine.scopes.depth = s.engine.scopes.depth + levels.toNat →
      ∃ t', (Request.command (.pop levels)).perform t = .ok .done t' ∧
        t'.engine.scopes = s.engine.scopes ∧ ChecksAlike s t' ∧ t'.session = t.session ∧
        ∀ u, t.session.Has u → ∃ n node, t'.session.native u = .ok n ∧
          t'.engine.store.find? n = some (node, u.sort) ∧
            ∀ env, t'.valueUnder env u = t.valueUnder env u) ∧
    ∀ levels : UInt64,
      (levels.toNat ≤ s.engine.scopes.depth →
        ∃ s', (Request.command (.pop levels)).perform s = .ok .done s') ∧
      (s.engine.scopes.depth < levels.toNat →
        (Request.command (.pop levels)).perform s = .error (.usage (.tooFewScopes levels)) s) := by
  have underway := history.underway
  have coherent := underway.coherent
  refine ⟨?_, fun levels => ⟨fun enough => ?_, pop_refused⟩⟩
  · intro levels s' t made asserted opens pushed inside ends
    have honoured := Enumerator.contract_honoured
    obtain ⟨t', popped, session, within, left, underway'⟩ :=
      scopes_restored underway opens pushed inside ends
    have kept := within.trans honoured left
    have known := fun ts hts u hu => (underway.asserted.known ts hts u hu).1
    refine ⟨t', popped, ?_, ?_, session, fun u hu => ?_⟩
    · refine underway.asserted.scopes_eq underway'.asserted fun ts hts u hu => ?_
      obtain ⟨n, recorded⟩ := coherent.native (known ts hts u hu)
      exact (kept.extension.natives u n recorded).trans recorded.symm
    · exact checksAlike_of_asserted coherent (.refl honoured coherent) kept underway.asserted
        underway'.asserted known
    · have hu' := left.extension.has u hu
      obtain ⟨n, -, node, recorded, -, found, -⟩ := left.coherent.node hu'
      have asked := Session.native_of_has (left.coherent.canonical.numbered u hu') recorded
      exact ⟨n, node, asked, found, fun env => left.valueUnder within.coherent hu⟩
  · exact ⟨_, pop_done enough⟩

/-- In a scope of its own something is asserted that is false, and once the scope is left the
assertions have a model again. -/
theorem scopes_nest_false :
    ∃ (s s' t t' : Solver Enumerator LogicSort Handle) (high low : Term) (made : List Term),
    History Enumerator.Unused s [high] [[high]] ∧ high.kind = .value (.bool true) ∧
      low.kind = .value (.bool false) ∧ (Request.command (.push 1)).perform s = .ok .done s' ∧
      Stretch Request.KeepsScopes (s.engine.scopes.depth + 1) s' [high] [[], [high]] t
        made [[low], [high]] ∧
      (Request.command .checkSat).perform.outcome t = .ok (.verdict .unsat) ∧
      (Request.command (.pop 1)).perform t = .ok .done t' ∧ t'.engine.scopes = s.engine.scopes ∧
      (Request.command .checkSat).perform.outcome t' = .ok (.verdict .sat) ∧
      (Request.command (.pop 1)).perform s = .error (.usage (.tooFewScopes 1)) s := by
  have new : History Enumerator.Unused (Solver.new (Enumerator.new "m") {}) [] [[]] :=
    .new (Enumerator.unused_new "m") {}
  obtain ⟨high, s, -, history, kind, -⟩ := exists_asserted new true
  have entered : History Enumerator.Unused _ [high] [[], [high]] :=
    history.answer (.command (.push 1)) (fun _ hu => absurd hu List.not_mem_nil) (push_done 1 s) rfl
  obtain ⟨low, t, inside, later, kind', depth⟩ := exists_asserted entered false
  obtain ⟨nests, leaves⟩ := scopes_nest history
  obtain ⟨t', popped, restored, alike, -⟩ :=
    nests 1 _ t _ _ (by decide) (push_done 1 s) inside depth
  have clash := unsat_of_low later (by simp [kind, kind']) (f := low) (by simp) kind'
  have sat := sat_of_high history (by simp [kind])
  have shallow : s.engine.scopes.depth = 0 :=
    (Nat.succ.inj history.underway.asserted.length_eq).symm
  have few : s.engine.scopes.depth < (1 : UInt64).toNat := by rw [shallow]; decide
  exact ⟨s, _, t, t', high, low, _, history, kind, kind', push_done 1 s, inside,
    clash, popped, restored, alike.outcome.trans sat, (leaves 1).2 few⟩

/-- To enter no scope is to stay in the present one: what is asserted then is not dropped by leaving
none, so a check that would have found a model before finds none afterwards. -/
theorem no_scope_entered :
    ∃ (levels : UInt64) (s s' t t' : Solver Enumerator LogicSort Handle) (low : Term)
    (made : List Term), levels = 0 ∧ History Enumerator.Unused s [] [[]] ∧
    low.kind = .value (.bool false) ∧ (Request.command (.push levels)).perform s = .ok .done s' ∧
      Stretch Request.KeepsScopes (s.engine.scopes.depth + levels.toNat) s' []
        (List.replicate levels.toNat [] ++ [[]]) t made [[low]] ∧
      t.engine.scopes.depth = s.engine.scopes.depth + levels.toNat ∧
      (Request.command (.pop levels)).perform t = .ok .done t' ∧
        t'.engine.scopes ≠ s.engine.scopes ∧
      (Request.command .checkSat).perform.outcome s = .ok (.verdict .sat) ∧
      (Request.command .checkSat).perform.outcome t' = .ok (.verdict .unsat) := by
  have history : History Enumerator.Unused (Solver.new (Enumerator.new "m") {}) [] [[]] :=
    .new (Enumerator.unused_new "m") {}
  obtain ⟨low, t, inside, later, kind, depth⟩ := exists_asserted history false
  have clash := unsat_of_low later (by simp [kind]) (f := low) (by simp) kind
  have sat := sat_of_high history fun _ hu => absurd hu List.not_mem_nil
  have none : (0 : UInt64).toNat ≤ t.engine.scopes.depth := Nat.zero_le _
  have popped : (Request.command (.pop 0)).perform t = .ok .done t := pop_done none
  have renders := later.underway.asserted.renders
  refine ⟨0, _, _, t, t, low, _, rfl, history, kind, push_done 0 _, inside, depth, popped,
    fun same => ?_, sat, clash⟩
  rw [same] at renders
  obtain ⟨first, -⟩ := List.forall₂_cons.mp renders
  cases first

end Solver

end FormulaGraph

import FormulaGraph.Proofs.Solver.Veiled

/-!
Every request is served alike on two solvers that differ in what the last check has left, unless it
reads that. A core is the one thing that is not told alike even where the engines cannot be told
apart, as it is the session that remembers the assumptions.
-/

namespace FormulaGraph

open FormulaGraph.Action

/-- The request reads what the last check has left. -/
def Request.ReadsCheck : Request → Prop
  | .command c => c.ReadsCheck
  | _ => False

namespace Rewriter

variable {σ : Type} {R : σ → σ → Prop} {r : Rewriter σ}

theorem settles_anyhow (cache : TermMap) (t : Term) (result : Except Ending Term × σ) :
    Settles (fun _ _ => True) (fun _ => True) cache t result := by
  obtain ⟨result, s⟩ := result
  cases result with
  | ok u => exact trivial
  | error ending =>
    cases ending with
    | failed e => exact ⟨trivial, trivial⟩
    | completed | stopped => exact trivial

theorem settle_abreast_of_overlooks (visit : ∀ t news, Overlooks R (r.visit t news))
    (rebuild : ∀ op news, Overlooks R (r.rebuild op news)) (t : Term) (news : List Term) {s s' : σ}
    (related : R s s') : Abreast R (r.settle t news s) (r.settle t news s') :=
  settle_abreast (visit t news s s' related) fun s₁ s₁' _ related =>
    rebuild t.op news s₁ s₁' related

end Rewriter

namespace Solver

variable {σ S T : Type} [BEq T] [Hashable T] {Q : σ → σ → Prop} {hidden : Command S T → Prop}

section Walks

theorem overlooks_walkWith {R : Solver σ S T → Solver σ S T → Prop} {r : Rewriter (Solver σ S T)}
    (iterable : ∀ s s', R s s' → r.iterable s' = r.iterable s)
    (visit : ∀ t news, Overlooks R (r.visit t news))
    (rebuild : ∀ op news, Overlooks R (r.rebuild op news)) (w : Walker) (t : Term) :
    Overlooks R (walkWith r w t) := by
  intro s s' related
  have walks := Rewriter.walk_abreast (N := fun _ => True) (fun _ _ _ _ => trivial)
    (fun cache s t news _ _ _ => Rewriter.settles_anyhow cache t (r.settle t news s))
    (fun _ _ _ t news _ _ _ related =>
      Rewriter.settle_abreast_of_overlooks visit rebuild t news related)
    {} (if w.clears then {} else w.cache) s s' [t] trivial (fun _ _ => trivial) related
  have visits := Walker.visit_alike (iterable s s' related) related walks
  unfold walkWith
  generalize Walker.visit r t (w, s) = v, Walker.visit r t (w, s') = v' at visits
  cases visits with
  | @ok u x x' related =>
    obtain ⟨w₁, s₁⟩ := x
    obtain ⟨w₂, s₂⟩ := x'
    obtain ⟨rfl, related⟩ : w₂ = w₁ ∧ R s₁ s₂ := related
    exact .ok (w₂, u) related
  | error e related => exact .error e related.2

end Walks

variable [Engine σ S T] (discreet : Engine.Discreet Q hidden)

include discreet

section Rewriting

theorem overlooks_replace (w : Walker) (t : Term) :
    Overlooks (Veiled Q)
      (walkWith (.identity makeTerm) w t : Action (Solver σ S T) (Walker × Term)) :=
  overlooks_walkWith (fun _ _ _ => rfl) (fun _ _ => overlooks_pure _)
    (overlooks_makeTerm discreet) w t

theorem overlooks_substituteAll (w : Walker) (ts : List Term) :
    Overlooks (Veiled Q) (substituteAll w ts : Action (Solver σ S T) (List Term)) := by
  induction ts generalizing w with
  | nil => exact overlooks_pure []
  | cons t ts ih =>
    rw [substituteAll]
    exact (overlooks_replace discreet w t).bind fun found =>
      (ih found.1).bind fun _ => overlooks_pure _

theorem overlooks_substituteTerms (ts : List Term) (map : TermMap) :
    Overlooks (Veiled Q) (substituteTerms ts map : Action (Solver σ S T) (List Term)) :=
  (overlooks_ofExcept _).bind fun w => overlooks_substituteAll discreet w ts

theorem overlooks_substitute (t : Term) (map : TermMap) :
    Overlooks (Veiled Q) (substitute t map : Action (Solver σ S T) Term) :=
  (overlooks_ofExcept _).bind fun w =>
    (overlooks_replace discreet w t).bind fun _ => overlooks_pure _

omit discreet in
mutual
theorem overlooks_declareSorts (discreet : Engine.Discreet Q hidden) (sort : LogicSort) :
    Overlooks (Veiled Q) (declareSorts sort : Action (Solver σ S T) Unit) := by
  cases sort with
  | uninterpreted name arity =>
    rw [declareSorts]
    refine overlooks_getSession (fun _ _ _ _ _ => rfl) fun s => ?_
    split
    · exact (overlooks_makeUninterpretedSort discreet name arity).bind fun _ => overlooks_pure ()
    · exact overlooks_pure ()
  | datatype name =>
    rw [declareSorts]
    refine overlooks_get ?_ fun s => ?_
    · rintro s s' ⟨related, _, _, session⟩
      rw [discreet.name related, session]
      rfl
    · split
      · exact overlooks_throw _
      · exact overlooks_pure ()
  | array index element =>
    rw [declareSorts]
    exact (overlooks_declareSorts discreet element).bind fun _ =>
      overlooks_declareSorts discreet index
  | function domain range =>
    rw [declareSorts]
    exact (overlooks_declareSorts discreet range).bind fun _ => overlooks_declareAll discreet domain
  | bool | int | real | bitVec | param | unresolved =>
    rw [declareSorts]
    exact overlooks_pure ()
theorem overlooks_declareAll (discreet : Engine.Discreet Q hidden) (sorts : List LogicSort) :
    Overlooks (Veiled Q) (declareAll sorts : Action (Solver σ S T) Unit) := by
  cases sorts with
  | nil =>
    rw [declareAll]
    exact overlooks_pure ()
  | cons sort rest =>
    rw [declareAll]
    exact (overlooks_declareAll discreet rest).bind fun _ => overlooks_declareSorts discreet sort
end

theorem overlooks_matchSymbol (name : String) (sort : LogicSort) :
    Overlooks (Veiled Q) (matchSymbol name sort : Action (Solver σ S T) Term) := by
  refine overlooks_getSession (fun _ _ _ _ _ => rfl) fun s => ?_
  split
  · exact (overlooks_ofExcept _).bind fun _ => overlooks_pure _
  · exact (overlooks_declareSorts discreet sort).bind fun _ =>
      overlooks_makeSymbol discreet name sort

theorem overlooks_translate (t : Term) (children : List Term) :
    Overlooks (Veiled Q) (translate t children : Action (Solver σ S T) Term) := by
  unfold translate
  split
  · exact overlooks_matchSymbol discreet _ _
  · exact overlooks_makeValue discreet _ _
  · exact overlooks_makeConstArray discreet _ _
  · exact overlooks_throw _
  · exact overlooks_makeTerm discreet _ _

theorem overlooks_transfer (t : Term) :
    Overlooks (Veiled Q) (transfer t : Action (Solver σ S T) Term) :=
  (overlooks_walkWith (r := translator) (fun _ _ _ => rfl)
    (fun t news => (overlooks_translate discreet t news).map _)
    (overlooks_makeTerm discreet) _ t).bind fun _ => overlooks_pure _

end Rewriting

section Requests

omit [Engine σ S T] discreet in
theorem overlooks_done {act : Action (Solver σ S T) Unit} (overlooks : Overlooks (Veiled Q) act) :
    Overlooks (Veiled Q) (do act; return .done : Action (Solver σ S T) (Answer LogicSort Term)) :=
  overlooks.bind fun _ => overlooks_pure _

theorem overlooks_passed {act : Action σ Unit} (c : Command S T) (plain : ¬ c.ReadsCheck)
    (performs : Engine.perform c = do act; return .done) :
    Overlooks (Veiled Q)
      (do onEngine act; return .done : Action (Solver σ S T) (Answer LogicSort Term)) :=
  overlooks_done (overlooks_onEngine discreet (discreet.done (mt discreet.reads plain) performs))

omit [Engine σ S T] discreet in
theorem overlooks_now {answer : Solver σ S T → Answer LogicSort Term}
    (same : ∀ s s', Veiled Q s s' → answer s' = answer s) :
    Overlooks (Veiled Q) (fun s => .ok (answer s) s) := by
  intro s s' related
  dsimp only
  rw [same s s' related]
  exact .ok _ related

theorem overlooks_check {act : Action σ Verdict} (c : Command S T) (plain : ¬ c.ReadsCheck)
    (performs : Engine.perform c = Answer.verdict <$> act) :
    Overlooks (Veiled Q) (onEngine act : Action (Solver σ S T) Verdict) :=
  overlooks_onEngine discreet <|
    discreet.answered (mt discreet.reads plain) performs fun _ _ => Answer.verdict.inj

theorem overlooks_command {c : Command LogicSort Term} (reads : c.ReadsCheck → ∀ c, ¬ hidden c)
    (other : c ≠ .getUnsatCore) :
    Overlooks (Veiled Q) (Engine.perform c : Action (Solver σ S T) (Answer LogicSort Term)) := by
  cases c with
  | name =>
    exact overlooks_now fun _ _ related => congrArg Answer.text (discreet.name related.1)
  | capabilities =>
    exact overlooks_now fun _ _ related =>
      congrArg
        (fun c : Capabilities => Answer.capabilities ((c.insert .logging).insert .termIteration))
        (discreet.capabilities related.1)
  | literal t => exact overlooks_now fun _ _ _ => rfl
  | sortOf t | opOf t | children t => exact (overlooks_pure _).map _
  | setOption option value => exact overlooks_passed discreet (.setOption option value) id rfl
  | setLogic logic => exact overlooks_passed discreet (.setLogic logic) id rfl
  | makeSort kind => exact (overlooks_makeSort discreet kind).map _
  | makeBitVecSort width => exact (overlooks_makeBitVecSort discreet width).map _
  | makeArraySort index element =>
    exact (overlooks_withNative discreet (.array index element)).map _
  | makeFunctionSort domain range => exact (overlooks_makeFunctionSort discreet domain range).map _
  | makeUninterpretedSort name arity =>
    exact (overlooks_makeUninterpretedSort discreet name arity).map _
  | makeDatatypeSort decl => exact (overlooks_makeDatatypeSort discreet decl).map _
  | makeValue l sort => exact (overlooks_makeValue discreet l sort).map _
  | makeConstArray fill sort => exact (overlooks_makeConstArray discreet fill sort).map _
  | makeSymbol name sort => exact (overlooks_makeSymbol discreet name sort).map _
  | makeTerm op args => exact (overlooks_makeTerm discreet op args).map _
  | assertFormula t => exact overlooks_done (overlooks_assertFormula discreet t)
  | checkSat => exact (overlooks_check discreet .checkSat id rfl).map _
  | checkSatAssuming assumptions => exact (overlooks_checkSatAssuming discreet assumptions).map _
  | checkSatInterruptible token =>
    exact (overlooks_check discreet (.checkSatInterruptible token) id rfl).map _
  | getValue t => exact (overlooks_getValue discreet (reads trivial) t).map _
  | getArrayValues t => exact (overlooks_getArrayValues discreet (reads trivial) t).map _
  | getUnsatCore => exact absurd rfl other
  | push levels => exact overlooks_passed discreet (.push levels) id rfl
  | pop levels => exact overlooks_passed discreet (.pop levels) id rfl
  | reset => exact overlooks_done (overlooks_reset discreet)
  | resetAssertions => exact overlooks_done (overlooks_resetAssertions discreet)

/-- A request is served alike, unless it is for a core, or reads what is hidden. -/
theorem overlooks_perform {q : Request} (reads : q.ReadsCheck → ∀ c, ¬ hidden c)
    (other : q ≠ .command .getUnsatCore) :
    Overlooks (Veiled Q) (q.perform : Action (Solver σ S T) (Answer LogicSort Term)) := by
  cases q with
  | command c => exact overlooks_command discreet reads fun same => other (congrArg _ same)
  | makeBool b => exact (overlooks_makeValue discreet _ _).map _
  | makeInt i sort => exact (overlooks_makeInt discreet i sort).map _
  | parseValue repr sort base => exact (overlooks_parseValue discreet repr sort base).map _
  | getSymbol name => exact Overlooks.map _ (overlooks_ask fun _ _ _ => rfl)
  | substitute t map => exact (overlooks_substitute discreet t map).map _
  | substituteTerms ts map => exact (overlooks_substituteTerms discreet ts map).map _
  | transfer t => exact (overlooks_transfer discreet t).map _

end Requests

section Together

/-- Two solvers go on side by side from two states: both are served the same requests, out of those
that are allowed, however these end; their notices are taken; or other solvers draw on the
supply. -/
inductive Together (allowed : Request → Prop) (s s' : Solver σ S T) :
    Solver σ S T → Solver σ S T → Prop
  | start : Together allowed s s' s s'
  | served {t t' : Solver σ S T} (before : Together allowed s s' t t') {q : Request}
      (asked : allowed q) :
      Together allowed s s' (q.perform.finalState t) (q.perform.finalState t')
  | reported {t t' : Solver σ S T} (before : Together allowed s s' t t') :
      Together allowed s s' (Engine.takeNotices t).2 (Engine.takeNotices t').2
  | elsewhere {t t' : Solver σ S T} (before : Together allowed s s' t t') (supply : Supply) :
      Together allowed s s' ⟨t.engine, { t.session with supply }⟩
        ⟨t'.engine, { t'.session with supply }⟩

theorem Together.veiled {allowed : Request → Prop} {s s' t t' : Solver σ S T}
    (served : ∀ q, allowed q → q ≠ .command .getUnsatCore ∧ (q.ReadsCheck → ∀ c, ¬ hidden c))
    (veiled : Veiled Q s s') (together : Together allowed s s' t t') : Veiled Q t t' := by
  induction together with
  | start => exact veiled
  | served _ asked ih =>
    obtain ⟨other, reads⟩ := served _ asked
    exact (overlooks_perform discreet reads other _ _ ih).finalState
  | @reported t t' _ ih =>
    obtain ⟨e, session⟩ := t
    obtain ⟨e', _⟩ := t'
    obtain ⟨related, assumptions, notices, rfl⟩ := ih
    exact ⟨related, assumptions, #[], rfl⟩
  | @elsewhere t t' _ supply ih =>
    obtain ⟨e, session⟩ := t
    obtain ⟨e', _⟩ := t'
    obtain ⟨related, assumptions, notices, rfl⟩ := ih
    exact ⟨related, assumptions, notices, rfl⟩

end Together

end Solver

end FormulaGraph

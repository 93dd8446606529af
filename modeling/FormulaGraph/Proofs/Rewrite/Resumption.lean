import FormulaGraph.Proofs.Solver.SortKeeping

/-!
Resumption. A rewriter that decides by the node and by what its children became can be held up at
any nodes, by a stop or by a failure. What is known by then are final images, and a rewriting that
goes on from there takes up the work where it was left: it does the rest of what the uninterrupted
one does, in the same order and on the same states.
-/

namespace FormulaGraph

open FormulaGraph.Action

variable {σ : Type}

namespace Rewriter

/-- What becomes of a node, as far as the node and the images of its children decide it. -/
abbrev Decision := Term → List Term → Except Error Step

/-- The rewriter that goes by a decision alone. -/
def deciding (decide : Decision) (rebuild : Op → List Term → Action σ Term) : Rewriter σ where
  iterable _ := true
  visit t news := .ofExcept (decide t news)
  rebuild := rebuild

/-- The decision that is made everywhere but at these nodes, where the rewriting ends. -/
def Decision.interrupted (decide : Decision) (halts : Term → Option Halt) :
    Decision := fun t news =>
  match halts t with
  | none => decide t news
  | some .stopped => .ok .abort
  | some (.failed e) => .error e

/-- It does not end by a failure from there. -/
def Goes (act : Rewriting σ Unit) (before : TermMap × σ) : Prop :=
  ∀ e after, act before ≠ .error (.failed e) after

/-- The second rewriting is the first one as far as it comes: where it is done, so is the first, and
where it ended early, the first one goes on as from the beginning. -/
def Takes (act act' : Rewriting σ Unit) (before : TermMap × σ) : Prop :=
  match act' before with
  | .ok _ after => act before = .ok () after
  | .error _ after => act after = act before

section Steps

variable {decide : Decision} {rebuild : Op → List Term → Action σ Term} {halts : Term → Option Halt}
  {r r' : Rewriter σ} {t : Term} {ts news : List Term} {before after mid : TermMap × σ} {h : Halt}

theorem finish_interrupted_none (passes : halts t = none) :
    (deciding (decide.interrupted halts) rebuild).finish t news =
      (deciding decide rebuild).finish t news := by
  simp only [finish, deciding, Decision.interrupted, passes]

theorem finish_interrupted_some (held : halts t = some h) :
    (deciding (decide.interrupted halts) rebuild).finish t news before = .error h before := by
  simp only [finish, deciding, Decision.interrupted, held]
  cases h <;> rfl

/-- Whatever else stops a node, no state is touched by it. -/
theorem eq_of_finish_stopped
    (stopped : (deciding decide rebuild).finish t news before = .error .stopped after) :
    after = before := by
  obtain ⟨cache, s⟩ := before
  rw [finish] at stopped
  cases decided : decide t news with
  | error e =>
    have asked : (deciding decide rebuild).visit t news s = .error e s := by
      simp only [deciding, decided]
      rfl
    rw [bind_error (perform_error asked cache)] at stopped
    cases stopped
  | ok step =>
    have asked : (deciding decide rebuild).visit t news s = .ok step s := by
      simp only [deciding, decided]
      rfl
    rw [bind_ok (perform_ok asked cache)] at stopped
    cases step with
    | abort => cases stopped; rfl
    | keep | replace u => cases stopped
    | resume =>
      dsimp only at stopped
      split at stopped
      · cases stopped
      · cases rebuilt : (deciding decide rebuild).rebuild t.op news s with
        | ok u s' => rw [bind_ok (perform_ok rebuilt cache)] at stopped; cases stopped
        | error e s' => rw [bind_error (perform_error rebuilt cache)] at stopped; cases stopped

theorem rewriteAll_known (known : ∀ t ∈ ts, before.1.contains t = true) :
    r.rewriteAll ts before = .ok () before := by
  induction ts with
  | nil => rfl
  | cons t ts ih =>
    rw [rewriteAll, bind_ok (ih fun t' ht' => known t' (List.mem_cons_of_mem _ ht'))]
    exact rewrite_known (known t List.mem_cons_self)

theorem bind_eq_of_eq {α β : Type} {act : Rewriting σ α} {next : α → Rewriting σ β}
    (same : act after = act before) : (act >>= next) after = (act >>= next) before := by
  simp only [bind, EStateM.bind, same]

theorem Goes.of_bind {act : Rewriting σ Unit} {next : Unit → Rewriting σ Unit}
    (goes : Goes (act >>= next) before) : Goes act before :=
  fun e after failed => goes e after (bind_error failed)

theorem takes_rewriteAll (acyclic : ∀ t ∈ ts, t.Acyclic)
    (each : ∀ t ∈ ts, ∀ before, Goes (r.rewrite t) before →
      Takes (r.rewrite t) (r'.rewrite t) before)
    (goes : Goes (r.rewriteAll ts) before) : Takes (r.rewriteAll ts) (r'.rewriteAll ts) before := by
  induction ts with
  | nil => rfl
  | cons t ts ih =>
    rw [rewriteAll] at goes
    have others := ih (fun t' ht' => acyclic t' (List.mem_cons_of_mem _ ht'))
      (fun t' ht' => each t' (List.mem_cons_of_mem _ ht')) goes.of_bind
    have progress := rewriteAll_progress (r := r')
      (fun t' ht' => rewrite_progress r' (acyclic t' (List.mem_cons_of_mem _ ht')))
        before.1 before.2
    unfold Takes at others ⊢
    rw [rewriteAll, rewriteAll]
    cases reached : r'.rewriteAll ts before with
    | error h after =>
      rw [reached] at others
      rw [bind_error reached]
      exact bind_eq_of_eq others
    | ok _ mid =>
      rw [reached] at others progress
      have goes' : Goes (r.rewrite t) mid := fun e after failed =>
        goes e after ((bind_ok others).trans failed)
      have first := each t List.mem_cons_self mid goes'
      unfold Takes at first
      rw [bind_ok reached, bind_ok others]
      cases done : r'.rewrite t mid with
      | ok _ after =>
        rw [done] at first
        exact first
      | error h after =>
        -- The other terms stay known, so the first rewriting comes to this one at once.
        rw [done] at first
        have grown := rewrite_progress r' (acyclic t List.mem_cons_self) mid.1 mid.2
        rw [done] at grown
        have known := fun t' ht' => grown.1.contains (progress.2 t' ht')
        exact (bind_ok (rewriteAll_known known)).trans first

end Steps

/-- A rewriting that is held up is taken up again by the one that is not. -/
theorem takes_interrupted (decide : Decision) (rebuild : Op → List Term → Action σ Term)
    (halts : Term → Option Halt) {t : Term} (acyclic : t.Acyclic) {before : TermMap × σ}
    (goes : Goes ((deciding decide rebuild).rewrite t) before) :
    Takes ((deciding decide rebuild).rewrite t)
      ((deciding (decide.interrupted halts) rebuild).rewrite t) before := by
  induction t generalizing before with
  | node t ih =>
    obtain ⟨cache, s⟩ := before
    unfold Takes
    cases known : cache.contains t with
    | true =>
      rw [rewrite_known known]
      exact rewrite_known known
    | false =>
      have unfolded := rewrite_unknown (r := deciding decide rebuild) (s := s) known
      have below : ∀ c ∈ t.children, c.Acyclic := fun c hc => acyclic.child hc
      have goes' : Goes ((deciding decide rebuild).rewriteAll t.children) (cache, s) :=
        fun e after failed => goes e after (unfolded.trans (bind_error failed))
      have children := takes_rewriteAll below (fun c hc _ => ih c hc (below c hc)) goes'
      have progress := rewriteAll_progress (r := deciding (decide.interrupted halts) rebuild)
        (fun c hc => rewrite_progress _ (below c hc)) cache s
      unfold Takes at children
      rw [rewrite_unknown known]
      cases reached :
        (deciding (decide.interrupted halts) rebuild).rewriteAll t.children (cache, s) with
      | error h after =>
        rw [reached] at children progress
        rw [bind_error reached, unfolded]
        exact (rewrite_unknown (progress.unknown acyclic known)).trans (bind_eq_of_eq children)
      | ok _ mid =>
        rw [reached] at children progress
        have fresh := progress.1.unknown acyclic known
        rw [bind_ok children] at unfolded
        -- From where its children are done, the node is all that is left.
        have again : (deciding decide rebuild).rewrite t mid =
            (deciding decide rebuild).rewrite t (cache, s) := by
          rw [unfolded]
          exact (rewrite_unknown fresh).trans (bind_ok (rewriteAll_known progress.2))
        rw [bind_ok reached, bind_ok (images_apply _ _ _)]
        rw [bind_ok (images_apply _ _ _)] at unfolded
        cases passes : halts t with
        | some h =>
          rw [finish_interrupted_some passes]
          exact again
        | none =>
          rw [finish_interrupted_none passes, ← unfolded]
          cases done : (deciding decide rebuild).rewrite t (cache, s) with
          | ok _ after => rfl
          | error h after =>
            cases h with
            | failed e => exact absurd done (goes e after)
            | stopped =>
              have same : after = mid := eq_of_finish_stopped (unfolded.symm.trans done)
              rw [same] at done ⊢
              exact again.trans done

end Rewriter

namespace Walker

open Rewriter

variable {decide : Decision} {rebuild : Op → List Term → Action σ Term} {halts : Term → Option Halt}
  {root : Term} {w : Walker} {s : σ} {after : Walker × σ}

theorem visit_keeps (r : Rewriter σ) (acyclic : root.Acyclic) (keeps : w.clears = false) :
    ((visit r root).finalState (w, s)).1.clears = false ∧
      ∀ a b : Term, w.cache[a]? = some b →
        ((visit r root).finalState (w, s)).1.cache[a]? = some b := by
  cases iterable : r.iterable s with
  | false =>
    rw [finalState_error (visit_refused r root w iterable)]
    exact ⟨keeps, fun _ _ found => found⟩
  | true =>
    have progress := r.rewrite_progress acyclic w.cache s
    rw [finalState, visit_eq_recurse r acyclic w iterable, recurse, keeps,
      if_neg Bool.false_ne_true]
    cases done : r.rewrite root (w.cache, s) with
    | ok _ after =>
      rw [done] at progress
      exact ⟨rfl, progress.1.kept⟩
    | error h after =>
      rw [done] at progress
      cases h <;> exact ⟨rfl, progress.1.kept⟩

/-- After a visit that was held up, one that is not does as if it had come first. -/
theorem visit_interrupted (acyclic : root.Acyclic) (keeps : w.clears = false) {u : Term}
    (done : visit (deciding decide rebuild) root (w, s) = .ok u after) :
    visit (deciding decide rebuild) root
      ((visit (deciding (decide.interrupted halts) rebuild) root).finalState (w, s)) =
        .ok u after := by
  have goes : Goes ((deciding decide rebuild).rewrite root) (w.cache, s) := by
    intro e after' failed
    rw [visit_eq_recurse _ acyclic w rfl, recurse, keeps, if_neg Bool.false_ne_true, failed] at done
    cases done
  have takes := takes_interrupted decide rebuild halts acyclic goes
  rw [← done, finalState, visit_eq_recurse
    (deciding (decide.interrupted halts) rebuild) acyclic w rfl,
    visit_eq_recurse _ acyclic w rfl, recurse, recurse, keeps, if_neg Bool.false_ne_true]
  unfold Takes at takes
  cases ended : (deciding (decide.interrupted halts) rebuild).rewrite root (w.cache, s) with
  | ok _ mid =>
    rw [ended] at takes
    have known := rewrite_progress (deciding decide rebuild) acyclic w.cache s
    rw [takes] at known
    dsimp only
    rw [visit_eq_recurse _ acyclic _ rfl, recurse, if_neg Bool.false_ne_true]
    dsimp only
    rw [takes, rewrite_known known.2]
  | error h mid =>
    rw [ended] at takes
    cases h <;>
    · dsimp only
      rw [visit_eq_recurse _ acyclic _ rfl, recurse, if_neg Bool.false_ne_true]
      dsimp only
      rw [takes]

/-- Visits of a root one after the other, each held up at nodes of its own. -/
def visitsInterrupted (decide : Decision) (rebuild : Op → List Term → Action σ Term) (root : Term) :
    List (Term → Option Halt) → Walker × σ → Walker × σ
  | [], state => state
  | halts :: more, state => visitsInterrupted decide rebuild root more
      ((visit (deciding (decide.interrupted halts) rebuild) root).finalState state)

/-- A visit can be interrupted at any nodes any number of times: going on with it in the end answers
the same term, and leaves the same cache and state, as the visit from the beginning that is not
interrupted. What the interrupted visits left in the cache is what is there in the end. -/
theorem visit_resumes (decide : Decision) (rebuild : Op → List Term → Action σ Term) (root : Term)
    (acyclic : root.Acyclic) (w : Walker) (keeps : w.clears = false) (s : σ) (u : Term)
    (after : Walker × σ) (done : visit (deciding decide rebuild) root (w, s) = .ok u after)
    (interruptions : List (Term → Option Halt)) :
    visit (deciding decide rebuild) root
        (visitsInterrupted decide rebuild root interruptions (w, s)) = .ok u after ∧
      ∀ a b : Term, (visitsInterrupted decide rebuild root interruptions (w, s)).1.cache[a]? =
        some b → after.1.cache[a]? = some b := by
  induction interruptions generalizing w s with
  | nil =>
    have kept := (visit_keeps (s := s) (deciding decide rebuild) acyclic keeps).2
    rw [finalState_ok done] at kept
    exact ⟨done, kept⟩
  | cons halts more ih =>
    have kept := visit_keeps (s := s) (deciding (decide.interrupted halts) rebuild) acyclic keeps
    exact ih _ kept.1 _ (visit_interrupted acyclic keeps done)

/-- On a solver, a double negation of a truth value that is replaced: the first visit fails at the
inner negation, and the second one, which rebuilds that, stops at the outer one. -/
theorem visit_resumes_negations :
    ∃ (s : Solver Enumerator LogicSort Handle) (t f inner root u : Term)
      (after : Walker × Unit × Solver Enumerator LogicSort Handle),
      let decide : Decision := fun a _ => .ok (if a == t then .replace f else .resume)
      let rebuild : Op → List Term → Action (Unit × Solver Enumerator LogicSort Handle) Term :=
        fun op news => (Solver.makeTerm op news).beside
      let interruptions : List (Term → Option Halt) :=
        [fun a => if a == inner then some (.failed (.unsupported .opaqueTerms)) else none,
          fun a => if a == root then some .stopped else none]
      Solver.Run Enumerator.Fresh s [t, f, inner, root] ∧ root.children = [inner] ∧
        inner.children = [t] ∧ root.Acyclic ∧
        visit (deciding decide rebuild) root ({}, (), s) = .ok u after ∧
        visit (deciding decide rebuild) root
          (visitsInterrupted decide rebuild root interruptions ({}, (), s)) = .ok u after := by
  obtain ⟨s₀, t, f, run₀, coherent₀, ⟨ht, hf⟩, ⟨sort, -⟩, sort', -⟩ :=
    Solver.run_truth_values Enumerator.Fresh (Enumerator.fresh_new "m") (Enumerator.fresh_new "m")
  obtain ⟨inner, s₁, run₁, kept₁, hinner, sort₁, below⟩ := run₀.negates coherent₀ (by simp) ht sort
  obtain ⟨root, s, run, kept, hroot, -, top⟩ := run₁.negates kept₁.coherent (by simp) hinner sort₁
  have extension := kept₁.extension.trans kept.extension
  have keeping : Solver.SortKeeping (V := Unit) s
      fun a _ => .ofExcept (.ok (if a == t then .replace f else .resume)) := by
    refine ⟨fun _ _ _ _ _ => .rest, fun a news v s'' u after asked done => ?_⟩
    obtain ⟨coherent', extended⟩ :=
      asked.continues.coherent Enumerator.contract_honoured kept.coherent
    cases same : a == t with
    | false => simp [same, Action.ofExcept, pure, EStateM.pure] at done
    | true =>
      simp only [same, if_true, Action.ofExcept, pure, EStateM.pure] at done
      cases done
      have eq := coherent'.canonical.identified a t asked.node
        (extended.has t (extension.has t ht)) (Term.beq_iff.mp same)
      exact ⟨extended.has f (extension.has f hf), by rw [eq, sort, sort']⟩
  have acyclic : root.Acyclic := (kept.coherent.canonical.ordered hroot).acyclic
  have holds : Solver.Sorted s {} ((), s) := ⟨.rest, Solver.suits_empty s⟩
  have visited :=
    visit_endsWithin (w := {}) (Solver.steady_hooked keeping kept.coherent) rfl hroot holds
  cases done :
    visit (Solver.hooked fun a _ => .ofExcept (.ok (if a == t then .replace f else .resume)))
      root ({}, (), s) with
  | ok u after =>
    exact ⟨s, t, f, inner, root, u, after, run, top, below, acyclic, done,
      (visit_resumes _ _ root acyclic {} rfl ((), s) u after done _).1⟩
  | error e after =>
    rw [done] at visited
    obtain ⟨-, a, news, before, refused⟩ := visited
    cases refused

end Walker

end FormulaGraph

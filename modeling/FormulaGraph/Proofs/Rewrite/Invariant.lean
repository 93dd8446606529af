import FormulaGraph.Proofs.Error
import FormulaGraph.Proofs.Rewrite.Walk

/-!
What every step of a walk keeps, the whole walk keeps, wherever it ends.
-/

namespace FormulaGraph

variable {σ : Type}

/-- The invariant holds where the walk ended, and a failure is one that may happen. -/
def Rewriter.Ending.Within (I : TermMap → σ → Prop) (F : Error → Prop) :
    Rewriter.Ending × TermMap × σ → Prop
  | (.failed e, cache, s) => I cache s ∧ F e
  | (.completed, cache, s) | (.stopped, cache, s) => I cache s

/-- The same of a single step, which makes a node's image known. -/
def Rewriter.Settles (I : TermMap → σ → Prop) (F : Error → Prop) (cache : TermMap) (t : Term) :
    Except Rewriter.Ending Term × σ → Prop
  | (.ok u, s) => I (cache.insert t u) s
  | (.error ending, s) => Rewriter.Ending.Within I F (ending, cache, s)

namespace Rewriter

theorem mem_resolved {cache : TermMap} {t u : Term} {ts news : List Term}
    (found : resolved cache t ts = .ok news) (hu : u ∈ news) :
    ∃ c ∈ ts, cache[c]? = some u := by
  induction ts generalizing news with
  | nil =>
    cases found
    exact absurd hu List.not_mem_nil
  | cons c cs ih =>
    rw [resolved] at found
    split at found
    · cases found
    · rename_i d known
      cases rest : resolved cache t cs with
      | error e => rw [rest] at found; cases found
      | ok ds =>
        rw [rest] at found
        cases found
        cases List.mem_cons.mp hu with
        | inl same => exact ⟨c, List.mem_cons_self, same ▸ known⟩
        | inr hu =>
          obtain ⟨c', hc', known'⟩ := ih rest hu
          exact ⟨c', List.mem_cons_of_mem _ hc', known'⟩

theorem resolved_ok {cache : TermMap} {t : Term} {ts news : List Term}
    (found : resolved cache t ts = .ok news) :
    (∀ c ∈ ts, cache.contains c = true) ∧ news = ts.map fun c => cache.getD c c := by
  induction ts generalizing news with
  | nil =>
    cases found
    exact ⟨fun c hc => absurd hc List.not_mem_nil, rfl⟩
  | cons c cs ih =>
    rw [resolved] at found
    split at found
    · cases found
    · rename_i d known
      obtain ⟨ds, rest, found⟩ := ok_of_bind found
      cases found
      obtain ⟨others, rfl⟩ := ih rest
      refine ⟨List.forall_mem_cons.mpr ⟨?_, others⟩, ?_⟩
      · rw [Std.HashMap.contains_eq_isSome_getElem?, known]
        rfl
      · rw [List.map_cons, Std.HashMap.getD_eq_getD_getElem?, known]
        rfl

theorem plainly_resolved (cache : TermMap) (t : Term) (ts : List Term) :
    Plainly (resolved cache t ts) := by
  induction ts with
  | nil => exact .ok []
  | cons c cs ih =>
    rw [resolved]
    split
    · exact .error trivial
    · exact .bind ih fun _ => .pure _

/-- A walk keeps what its steps keep, on nodes of a kind that is handed down to children. -/
theorem walk_within {r : Rewriter σ} {I : TermMap → σ → Prop} {F : Error → Prop}
    {N : Term → Prop} (down : ∀ t, N t → ∀ c ∈ t.children, N c)
    (step : ∀ cache s t news, I cache s → N t → resolved cache t t.children = .ok news →
      Settles I F cache t (r.settle t news s))
    (plain : ∀ e : Error, e.Plain → F e)
    (entered : Std.HashSet Term) (cache : TermMap) (s : σ) (stack : List Term)
    (holds : I cache s) (nodes : ∀ t ∈ stack, N t) :
    Ending.Within I F (r.walk entered cache s stack) := by
  induction entered, cache, s, stack using walk.induct r with
  | case1 entered cache s =>
    rw [walk]
    exact holds
  | case2 entered cache s t rest known ih =>
    rw [walk, if_pos known]
    exact ih holds fun u hu => nodes u (List.mem_cons_of_mem _ hu)
  | case3 entered cache s t rest unknown met e failed =>
    rw [walk, if_neg unknown, if_pos met, failed]
    exact ⟨holds, plain e (plainly_resolved cache t t.children e failed).plain⟩
  | case4 entered cache s t rest unknown met news found ending s' settled =>
    rw [walk, if_neg unknown, if_pos met, found]
    have kept := step cache s t news holds (nodes t List.mem_cons_self) found
    simp only [settled] at kept ⊢
    exact kept
  | case5 entered cache s t rest unknown met news found u s' settled ih =>
    rw [walk, if_neg unknown, if_pos met, found]
    have kept := step cache s t news holds (nodes t List.mem_cons_self) found
    simp only [settled] at kept ⊢
    exact ih kept fun v hv => nodes v (List.mem_cons_of_mem _ hv)
  | case6 entered cache s t rest unknown unmet ih =>
    rw [walk, if_neg unknown, if_neg unmet]
    refine ih holds fun u hu => ?_
    rw [enter, List.mem_append, List.mem_reverse] at hu
    cases hu with
    | inl child => exact down t (nodes t List.mem_cons_self) u child
    | inr hu => exact nodes u hu

/-- The same of a rewriting by recursion. -/
def Rewriting.Within (I : TermMap → σ → Prop) (F : Error → Prop) :
    EStateM.Result Halt (TermMap × σ) Unit → Prop
  | .ok _ (cache, s) | .error .stopped (cache, s) => I cache s
  | .error (.failed e) (cache, s) => I cache s ∧ F e

section Recursion

variable {r : Rewriter σ} {I : TermMap → σ → Prop} {F : Error → Prop} {N : Term → Prop}

theorem rewriteAll_within {ts : List Term} {cache : TermMap} {s : σ}
    (each : ∀ t ∈ ts, ∀ cache s, I cache s → Rewriting.Within I F (rewrite r t (cache, s)))
    (holds : I cache s) : Rewriting.Within I F (rewriteAll r ts (cache, s)) := by
  induction ts with
  | nil => exact holds
  | cons t ts ih =>
    have others := ih fun t' ht' => each t' (List.mem_cons_of_mem _ ht')
    rw [rewriteAll]
    cases h : rewriteAll r ts (cache, s) with
    | error halt after =>
      rw [h] at others
      rw [Action.bind_error h]
      exact others
    | ok _ after =>
      rw [h] at others
      rw [Action.bind_ok h]
      exact each t List.mem_cons_self after.1 after.2 others

/-- A rewriting keeps what its steps keep, which are made on nodes that are not known yet and of
which all children are. -/
theorem rewrite_within
    (down : ∀ cache s t, I cache s → cache.contains t = false → N t → ∀ c ∈ t.children, N c)
    (step : ∀ cache s t, I cache s → cache.contains t = false →
      (∀ c ∈ t.children, cache.contains c = true) → N t →
      Settles I F cache t (r.settle t (t.children.map fun c => cache.getD c c) s))
    {t : Term} (acyclic : t.Acyclic) {cache : TermMap} {s : σ} (holds : I cache s) (node : N t) :
    Rewriting.Within I F (rewrite r t (cache, s)) := by
  induction t generalizing cache s with
  | node t ih =>
    cases known : cache.contains t with
    | true =>
      rw [rewrite_known known]
      exact holds
    | false =>
      have progress := rewriteAll_progress (r := r)
        (fun c hc => rewrite_progress r (acyclic.child hc)) cache s
      have children := rewriteAll_within (r := r) (F := F)
        (fun c hc _ _ holds' => ih c hc (acyclic.child hc) holds'
          (down cache s t holds known node c hc)) holds
      rw [rewrite_unknown known]
      cases h : rewriteAll r t.children (cache, s) with
      | error halt after =>
        rw [h] at children
        rw [Action.bind_error h]
        exact children
      | ok _ after =>
        rw [h] at progress children
        have settles :=
          step after.1 after.2 t children (progress.1.unknown acyclic known) progress.2 node
        rw [Action.bind_ok h, Action.bind_ok (images_apply _ _ _),
          finish_eq_settle _ _ _ _ (by simp)]
        generalize r.settle t (t.children.map fun c => after.1.getD c c) after.2 =
          settled at settles
        obtain ⟨result, s'⟩ := settled
        cases result with
        | ok u => exact settles
        | error ending => cases ending <;> exact settles

end Recursion

section Unstopped

variable {r : Rewriter σ} (never : ∀ t news s s', r.visit t news s ≠ .ok .abort s')

include never

theorem settle_ne_stopped (t : Term) (news : List Term) (s : σ) :
    (r.settle t news s).1 ≠ .error .stopped := by
  unfold settle
  cases visited : r.visit t news s with
  | error e s => exact nofun
  | ok step s =>
    cases step with
    | abort => exact absurd visited (never t news _ s)
    | keep | replace => exact nofun
    | resume =>
      dsimp only
      split
      · exact nofun
      · cases r.rebuild t.op news s <;> exact nofun

theorem walk_ne_stopped (entered : Std.HashSet Term) (cache : TermMap) (s : σ) (stack : List Term) :
    (r.walk entered cache s stack).1 ≠ .stopped := by
  induction entered, cache, s, stack using walk.induct r with
  | case1 entered cache s =>
    rw [walk]
    intro same
    cases same
  | case2 entered cache s t rest known ih =>
    rw [walk, if_pos known]
    exact ih
  | case3 entered cache s t rest unknown met e failed =>
    rw [walk, if_neg unknown, if_pos met, failed]
    intro same
    cases same
  | case4 entered cache s t rest unknown met news found ending s' settled =>
    have going := settle_ne_stopped never t news s
    rw [walk, if_neg unknown, if_pos met, found]
    simp only [settled] at going ⊢
    exact fun same => going (congrArg _ same)
  | case5 entered cache s t rest unknown met news found u s' settled ih =>
    rw [walk, if_neg unknown, if_pos met, found]
    simp only [settled]
    exact ih
  | case6 entered cache s t rest unknown unmet ih =>
    rw [walk, if_neg unknown, if_neg unmet]
    exact ih

end Unstopped

end Rewriter

theorem Walker.visit_within {r : Rewriter σ} {I : TermMap → σ → Prop} {F : Error → Prop}
    (plain : ∀ e : Error, e.Plain → F e) {root : Term} {w : Walker} {s : σ}
    (held : Rewriter.Ending.Within I F (r.walk {} (if w.clears then {} else w.cache) s [root])) :
    match visit r root (w, s) with
    | .ok u (w', s') => I w'.cache s' ∧ (w'.cache[root]? = some u ∨ u = root)
    | .error e (w', s') => (s' = s ∨ I w'.cache s') ∧ F e := by
  cases iterable : r.iterable s with
  | false =>
    rw [visit_refused r root w iterable]
    exact ⟨.inl rfl, plain _ trivial⟩
  | true =>
    rw [visit_iterable r root w iterable]
    generalize r.walk {} (if w.clears then {} else w.cache) s [root] = ended at held
    obtain ⟨ending, cache, s'⟩ := ended
    cases ending with
    | failed e => exact ⟨.inr held.1, held.2⟩
    | stopped =>
      refine ⟨held, ?_⟩
      rw [Std.HashMap.getD_eq_getD_getElem?]
      cases cache[root]? with
      | some u => exact .inl rfl
      | none => exact .inr rfl
    | completed =>
      cases found : cache[root]? with
      | some u =>
        dsimp only
        rw [found]
        exact ⟨held, .inl found⟩
      | none =>
        dsimp only
        rw [found]
        exact ⟨.inr held, plain _ trivial⟩

/-- What is answered without a stop has become known. -/
theorem Walker.known_of_visit {r : Rewriter σ}
    (never : ∀ t news s s', r.visit t news s ≠ .ok .abort s') {root u : Term}
    {w w' : Walker} {s s' : σ}
    (visited : visit r root (w, s) = .ok u (w', s')) : w'.cache[root]? = some u := by
  cases iterable : r.iterable s with
  | false =>
    cases (visit_refused r root w iterable).symm.trans visited
  | true =>
    rw [visit_iterable r root w iterable] at visited
    have unstopped := Rewriter.walk_ne_stopped never {} (if w.clears then {} else w.cache) s [root]
    generalize r.walk {} (if w.clears then {} else w.cache) s [root] = ended at visited unstopped
    obtain ⟨ending, cache, s''⟩ := ended
    cases ending with
    | failed e => cases visited
    | stopped => exact absurd rfl unstopped
    | completed =>
      dsimp only at visited
      split at visited
      · rename_i found
        cases visited
        exact found
      · cases visited

end FormulaGraph

import FormulaGraph.Proofs.Rewrite.Recursion

/-!
The walk with a stack is the recursion.
-/

namespace FormulaGraph

open FormulaGraph.Action

namespace Rewriter

variable {σ : Type}

theorem walk_known (r : Rewriter σ) {t : Term} {cache : TermMap}
    (known : cache.contains t = true) (entered : Std.HashSet Term) (s : σ) (rest : List Term) :
    r.walk entered cache s (t :: rest) = r.walk entered cache s rest := by
  rw [walk, if_pos known]

theorem walk_enter (r : Rewriter σ) {t : Term} {cache : TermMap} {entered : Std.HashSet Term}
    (unknown : cache.contains t = false) (fresh : entered.contains t = false) (s : σ)
    (rest : List Term) :
    r.walk entered cache s (t :: rest) =
      r.walk (entered.insert t) cache s (t.children.reverse ++ t :: rest) := by
  rw [walk, unknown, fresh]
  rfl

theorem resolved_of_known {cache : TermMap} {t : Term} {ts : List Term}
    (known : ∀ c ∈ ts, cache.contains c = true) :
    resolved cache t ts = .ok (ts.map fun c => cache.getD c c) := by
  induction ts with
  | nil => rfl
  | cons c cs ih =>
    have first := known c List.mem_cons_self
    rw [Std.HashMap.contains_eq_isSome_getElem?, Option.isSome_iff_exists] at first
    obtain ⟨d, hd⟩ := first
    rw [resolved, hd, ih fun c' hc' => known c' (List.mem_cons_of_mem _ hc'), List.map_cons,
      Std.HashMap.getD_eq_getD_getElem?, hd]
    rfl

theorem walk_settle (r : Rewriter σ) {t : Term} {cache : TermMap} {entered : Std.HashSet Term}
    (unknown : cache.contains t = false) (known : entered.contains t = true)
    (children : ∀ c ∈ t.children, cache.contains c = true) (s : σ) (rest : List Term) :
    r.walk entered cache s (t :: rest) =
      match r.settle t (t.children.map fun c => cache.getD c c) s with
      | (.error ending, s) => (ending, cache, s)
      | (.ok u, s) => r.walk entered (cache.insert t u) s rest := by
  rw [walk, unknown, known, resolved_of_known children]
  rfl

theorem settle_ne_completed (r : Rewriter σ) (t : Term) (news : List Term) (s : σ) :
    (r.settle t news s).1 ≠ .error .completed := by
  unfold settle
  cases r.visit t news s with
  | error e s => intro h; cases h
  | ok step s =>
    cases step with
    | abort | keep | replace u => intro h; cases h
    | resume =>
      dsimp only
      split
      · intro h; cases h
      · cases r.rebuild t.op news s <;> intro h <;> cases h

/-- The nodes entered on the way are known at its end, those from before aside. -/
structure Passed (entered entered' : Std.HashSet Term) (cache' : TermMap) : Prop where
  kept : ∀ a : Term, entered.contains a = true → entered'.contains a = true
  known : ∀ a : Term, entered'.contains a = true →
    entered.contains a = true ∨ cache'.contains a = true

/-- The walk does with these terms on top of the stack what the recursion does with them, unless one
of their nodes is entered already and waits further down. -/
def Follows (r : Rewriter σ) (ts : List Term) (act : Rewriting σ Unit) : Prop :=
  ∀ (entered : Std.HashSet Term) (cache : TermMap) (s : σ) (rest : List Term),
    (∀ t ∈ ts, ∀ a : Term, a.OccursIn t → entered.contains a = true → cache.contains a = true) →
    match act (cache, s) with
    | .error h (cache', s') => r.walk entered cache s (ts ++ rest) = (h.ending, cache', s')
    | .ok _ (cache', s') => ∃ entered', Passed entered entered' cache' ∧
        r.walk entered cache s (ts ++ rest) = r.walk entered' cache' s' rest

theorem follows_rewriteAll {r : Rewriter σ} {ts : List Term}
    (acyclic : ∀ t ∈ ts, t.Acyclic) (each : ∀ t ∈ ts, Follows r [t] (rewrite r t)) :
    Follows r ts.reverse (rewriteAll r ts) := by
  induction ts with
  | nil =>
    intro entered cache s rest _
    exact ⟨entered, ⟨fun _ h => h, fun _ h => .inl h⟩, rfl⟩
  | cons t ts ih =>
    intro entered cache s rest clear
    have acyclic' : ∀ t' ∈ ts, t'.Acyclic := fun t' ht' => acyclic t' (List.mem_cons_of_mem _ ht')
    have others := ih acyclic' (fun t' ht' => each t' (List.mem_cons_of_mem _ ht'))
      entered cache s (t :: rest) fun t' ht' => clear t' (by
        rw [List.reverse_cons]
        exact List.mem_append_left _ ht')
    have grown := rewriteAll_progress (fun t' ht' => rewrite_progress r (acyclic' t' ht')) cache s
    rw [rewriteAll, List.reverse_cons, List.append_assoc]
    cases h : rewriteAll r ts (cache, s) with
    | error halt after =>
      rw [h] at others
      rw [bind_error h]
      exact others
    | ok _ after =>
      rw [h] at others grown
      rw [bind_ok h]
      obtain ⟨entered', passed, walked⟩ := others
      -- What the other terms entered is known, so it does not bar the way into this one.
      have clear' : ∀ t' ∈ [t], ∀ a : Term, a.OccursIn t' → entered'.contains a = true →
          after.1.contains a = true := by
        intro t' ht' a ha known
        rw [List.mem_singleton.mp ht'] at ha
        cases passed.known a known with
        | inl known => exact grown.1.contains (clear t (by simp) a ha known)
        | inr known => exact known
      have first := each t List.mem_cons_self entered' after.1 after.2 rest clear'
      cases h' : rewrite r t after with
      | error halt after' =>
        rw [h'] at first
        exact walked.trans first
      | ok _ after' =>
        rw [h'] at first
        obtain ⟨entered'', passed', walked'⟩ := first
        have last := rewrite_progress r (acyclic t List.mem_cons_self) after.1 after.2
        rw [h'] at last
        refine ⟨entered'', ⟨fun a ha => passed'.kept a (passed.kept a ha), fun a ha => ?_⟩,
          walked.trans walked'⟩
        cases passed'.known a ha with
        | inl ha => exact (passed.known a ha).imp_right last.1.contains
        | inr ha => exact .inr ha

theorem follows_rewrite (r : Rewriter σ) {t : Term} (acyclic : t.Acyclic) :
    Follows r [t] (rewrite r t) := by
  induction t with
  | node t ih =>
    intro entered cache s rest clear
    cases unknown : cache.contains t with
    | true =>
      rw [rewrite_known unknown]
      exact ⟨entered, ⟨fun _ h => h, fun _ h => .inl h⟩, walk_known r unknown entered s rest⟩
    | false =>
      have fresh : entered.contains t = false := by
        cases known : entered.contains t with
        | false => rfl
        | true =>
          have found := clear t List.mem_cons_self t .here known
          exact absurd (unknown.symm.trans found) Bool.false_ne_true
      have acyclic' : ∀ c ∈ t.children, c.Acyclic := fun c hc => acyclic.child hc
      -- The term itself is entered now, but does not occur below itself.
      have clear' : ∀ c ∈ t.children.reverse, ∀ a : Term, a.OccursIn c →
          (entered.insert t).contains a = true → cache.contains a = true := by
        intro c hc a ha known
        rw [List.mem_reverse] at hc
        rw [Std.HashSet.contains_insert, Bool.or_eq_true] at known
        cases known with
        | inl same => exact absurd (Term.beq_iff.mp same).symm (acyclic t .here c hc a ha)
        | inr known => exact clear t List.mem_cons_self a (.inChild hc ha) known
      have followed := follows_rewriteAll acyclic' (fun c hc => ih c hc (acyclic' c hc))
        (entered.insert t) cache s (t :: rest) clear'
      have grown := rewriteAll_progress (fun c hc => rewrite_progress r (acyclic' c hc)) cache s
      have entering := walk_enter r unknown fresh s rest
      rw [rewrite_unknown unknown]
      cases h : rewriteAll r t.children (cache, s) with
      | error halt after =>
        rw [h] at followed
        rw [bind_error h]
        exact entering.trans followed
      | ok _ after =>
        rw [h] at followed grown
        obtain ⟨entered', passed, walked⟩ := followed
        have leaving := walk_settle r (grown.1.unknown acyclic unknown) (passed.kept t (by simp))
          grown.2 after.2 rest
        rw [bind_ok h, bind_ok (images_apply _ _ _), finish_eq_settle _ _ _ _ (by simp)]
        generalize news : t.children.map (fun c => after.1.getD c c) = us at leaving ⊢
        have settled := r.settle_ne_completed t us after.2
        cases outcome : r.settle t us after.2 with
        | mk result s' =>
          rw [outcome] at settled leaving
          cases result with
          | error ending =>
            cases ending with
            | completed => exact absurd rfl settled
            | stopped | failed e => exact (entering.trans walked).trans leaving
          | ok u =>
            refine ⟨entered', ⟨fun a ha => passed.kept a (by simp [ha]), fun a ha => ?_⟩,
              (entering.trans walked).trans leaving⟩
            have known := passed.known a ha
            simp only [Std.HashSet.contains_insert, Std.HashMap.contains_insert, Bool.or_eq_true]
              at known ⊢
            exact known.elim (·.elim (.inr ∘ .inl) .inl) (.inr ∘ .inr)

/-- Some call of the rewriter fails with this error. -/
def Raises (r : Rewriter σ) (e : Error) : Prop :=
  (∃ t news s s', r.visit t news s = .error e s') ∨ ∃ op news s s',
    r.rebuild op news s = .error e s'

theorem raises_of_settle {r : Rewriter σ} {t : Term} {news : List Term} {s : σ} {e : Error}
    (failed : (r.settle t news s).1 = .error (.failed e)) : r.Raises e := by
  unfold settle at failed
  cases visited : r.visit t news s with
  | error e' s' =>
    rw [visited] at failed
    cases failed
    exact .inl ⟨t, news, s, s', visited⟩
  | ok step s' =>
    rw [visited] at failed
    cases step with
    | abort | keep | replace u => cases failed
    | resume =>
      dsimp only at failed
      split at failed
      · cases failed
      · cases rebuilt : r.rebuild t.op news s' with
        | ok u s'' => rw [rebuilt] at failed; cases failed
        | error e' s'' =>
          rw [rebuilt] at failed
          cases failed
          exact .inr ⟨t.op, news, s', s'', rebuilt⟩

theorem raises_of_rewriteAll {r : Rewriter σ} {ts : List Term} {e : Error}
    (each : ∀ t ∈ ts, ∀ before after, r.rewrite t before = .error (.failed e) after → r.Raises e)
    {before after : TermMap × σ} (failed : r.rewriteAll ts before = .error (.failed e) after) :
    r.Raises e := by
  induction ts with
  | nil => cases failed
  | cons t ts ih =>
    rw [rewriteAll] at failed
    cases h : rewriteAll r ts before with
    | error halt after' =>
      rw [bind_error h] at failed
      cases failed
      exact ih (fun t' ht' => each t' (List.mem_cons_of_mem _ ht')) h
    | ok _ after' =>
      rw [bind_ok h] at failed
      exact each t List.mem_cons_self after' after failed

theorem raises_of_rewrite {r : Rewriter σ} {t : Term} {e : Error} {before after : TermMap × σ}
    (failed : r.rewrite t before = .error (.failed e) after) : r.Raises e := by
  induction t generalizing before after with
  | node t ih =>
    obtain ⟨cache, s⟩ := before
    cases known : cache.contains t with
    | true => rw [rewrite_known known] at failed; cases failed
    | false =>
      rw [rewrite_unknown known] at failed
      cases h : rewriteAll r t.children (cache, s) with
      | error halt after' =>
        rw [bind_error h] at failed
        cases failed
        exact raises_of_rewriteAll (fun c hc before after => ih c hc) h
      | ok _ after' =>
        rw [bind_ok h, bind_ok (images_apply _ _ _), finish_eq_settle _ _ _ _ (by simp)] at failed
        generalize news : t.children.map (fun c => after'.1.getD c c) = us at failed
        have raised (failed : (r.settle t us after'.2).1 = .error (.failed e)) : r.Raises e :=
          raises_of_settle failed
        cases outcome : r.settle t us after'.2 with
        | mk result s' =>
          rw [outcome] at failed raised
          cases result with
          | ok u => cases failed
          | error ending =>
            cases ending with
            | completed | stopped => cases failed
            | failed e' =>
              cases failed
              exact raised rfl

/-- A call that a rewriting makes. -/
inductive Call where
  | visit (t : Term) (news : List Term)
  | rebuild (op : Op) (news : List Term)

/-- The rewriter that also keeps a record of the calls made to it, in order. -/
def traced (r : Rewriter σ) : Rewriter (σ × List Call) where
  iterable s := r.iterable s.1
  visit t news := fun (s, calls) =>
    match r.visit t news s with
    | .ok step s => .ok step (s, calls ++ [.visit t news])
    | .error e s => .error e (s, calls ++ [.visit t news])
  rebuild op news := fun (s, calls) =>
    match r.rebuild op news s with
    | .ok u s => .ok u (s, calls ++ [.rebuild op news])
    | .error e s => .error e (s, calls ++ [.rebuild op news])

theorem settle_traced (r : Rewriter σ) (t : Term) (news : List Term) (s : σ)
    (calls : List Call) : ∃ calls', r.traced.settle t news (s, calls) =
      ((r.settle t news s).1, (r.settle t news s).2, calls') := by
  unfold settle
  simp only [traced]
  cases r.visit t news s with
  | error e s' => exact ⟨_, rfl⟩
  | ok step s' =>
    cases step with
    | abort | keep | replace u => exact ⟨_, rfl⟩
    | resume =>
      dsimp only
      split
      · exact ⟨_, rfl⟩
      · cases r.rebuild t.op news s' <;> exact ⟨_, rfl⟩

theorem walk_traced (r : Rewriter σ) (entered : Std.HashSet Term) (cache : TermMap) (s : σ)
    (stack : List Term) (calls : List Call) :
    ∃ calls', r.traced.walk entered cache (s, calls) stack =
      ((r.walk entered cache s stack).1, (r.walk entered cache s stack).2.1,
        (r.walk entered cache s stack).2.2, calls') := by
  induction entered, cache, s, stack using walk.induct r generalizing calls with
  | case1 entered cache s => exact ⟨calls, by simp only [walk]⟩
  | case2 entered cache s t rest known ih =>
    simp only [walk_known _ known]
    exact ih calls
  | case3 entered cache s t rest unknown known e missing =>
    refine ⟨calls, ?_⟩
    rw [walk, walk, if_neg unknown, if_neg unknown, if_pos known, if_pos known, missing]
  | case4 entered cache s t rest unknown known news found ending s' settled =>
    obtain ⟨calls', settled'⟩ := settle_traced r t news s calls
    refine ⟨calls', ?_⟩
    rw [walk, walk, if_neg unknown, if_neg unknown, if_pos known, if_pos known, found]
    simp only [settled', settled]
  | case5 entered cache s t rest unknown known news found u s' settled ih =>
    obtain ⟨calls', settled'⟩ := settle_traced r t news s calls
    rw [walk, walk, if_neg unknown, if_neg unknown, if_pos known, if_pos known, found]
    simp only [settled', settled]
    exact ih calls'
  | case6 entered cache s t rest unknown fresh ih =>
    rw [walk, walk, if_neg unknown, if_neg unknown, if_neg fresh, if_neg fresh]
    exact ih calls

end Rewriter

namespace Walker

variable {σ : Type}

/-- Rewrites a term by recursion, from the walker's cache. -/
def recurse (r : Rewriter σ) (root : Term) : Action (Walker × σ) Term := fun (w, s) =>
  match r.rewrite root (if w.clears then {} else w.cache, s) with
  | .ok _ (cache, s) => .ok (cache.getD root root) ({ w with cache, aborted := false }, s)
  | .error .stopped (cache, s) => .ok root ({ w with cache, aborted := true }, s)
  | .error (.failed e) (cache, s) => .error e ({ w with cache, aborted := false }, s)

theorem visit_iterable (r : Rewriter σ) (root : Term) (w : Walker) {s : σ}
    (iterable : r.iterable s = true) : visit r root (w, s) =
      match r.walk {} (if w.clears then {} else w.cache) s [root] with
      | (.failed e, cache, s) => .error e (⟨cache, w.clears, false⟩, s)
      | (.stopped, cache, s) => .ok (cache.getD root root) (⟨cache, w.clears, true⟩, s)
      | (.completed, cache, s) =>
        match cache[root]? with
        | some t => .ok t (⟨cache, w.clears, false⟩, s)
        | none => .error (.internal (.unresolvedRoot root)) (⟨cache, w.clears, false⟩, s) := by
  rw [visit, iterable]
  rfl

theorem visit_refused (r : Rewriter σ) (root : Term) (w : Walker) {s : σ}
    (closed : r.iterable s = false) :
    visit r root (w, s) = .error (.unsupported .opaqueTerms) (w, s) := by
  rw [visit, closed]
  rfl

theorem visit_eq_recurse (r : Rewriter σ) {root : Term} (acyclic : root.Acyclic) (w : Walker)
    {s : σ} (iterable : r.iterable s = true) : visit r root (w, s) = recurse r root (w, s) := by
  have followed := r.follows_rewrite acyclic {} (if w.clears then {} else w.cache) s []
    fun t _ a _ entered => by simp at entered
  have progress := r.rewrite_progress acyclic (if w.clears then {} else w.cache) s
  rw [visit_iterable r root w iterable, recurse]
  cases h : r.rewrite root (if w.clears then {} else w.cache, s) with
  | error halt after =>
    rw [h] at followed progress
    obtain ⟨cache, s'⟩ := after
    rw [List.singleton_append] at followed
    rw [followed]
    cases halt with
    | failed e => rfl
    | stopped =>
      -- The root is known last, so a rewriting that stops leaves it unknown.
      dsimp only [Rewriter.Halt.ending]
      rw [Std.HashMap.getD_eq_fallback_of_contains_eq_false progress.2]
  | ok _ after =>
    rw [h] at followed progress
    obtain ⟨cache, s'⟩ := after
    obtain ⟨entered, -, walked⟩ := followed
    rw [List.singleton_append, Rewriter.walk] at walked
    have known := progress.2
    rw [Std.HashMap.contains_eq_isSome_getElem?, Option.isSome_iff_exists] at known
    obtain ⟨u, found⟩ := known
    rw [walked]
    simp only [found, Std.HashMap.getD_eq_getD_getElem?, Option.getD_some]

/-- The outcome of a visit with the calls that it made. -/
def recorded (calls : List Rewriter.Call) :
    EStateM.Result Error (Walker × σ) Term →
      EStateM.Result Error (Walker × σ × List Rewriter.Call) Term
  | .ok t (w, s) => .ok t (w, s, calls)
  | .error e (w, s) => .error e (w, s, calls)

theorem visit_recorded (r : Rewriter σ) (root : Term) (w : Walker) {s : σ}
    (iterable : r.iterable s = true)
    {calls calls' : List Rewriter.Call} {out : Rewriter.Ending × TermMap × σ}
    (walked : r.walk {} (if w.clears then {} else w.cache) s [root] = out)
    (traced : r.traced.walk {} (if w.clears then {} else w.cache) (s, calls) [root] =
      (out.1, out.2.1, out.2.2, calls')) :
    visit r.traced root (w, s, calls) = recorded calls' (visit r root (w, s)) := by
  have iterable' : r.traced.iterable (s, calls) = true := iterable
  rw [visit_iterable r root w iterable, visit_iterable r.traced root w iterable', walked, traced]
  obtain ⟨ending, cache, s'⟩ := out
  cases ending with
  | failed e | stopped => rfl
  | completed =>
    dsimp only
    cases cache[root]? <;> rfl

theorem visit_traced (r : Rewriter σ) (root : Term) (w : Walker) {s : σ}
    (iterable : r.iterable s = true) (calls : List Rewriter.Call) :
    ∃ calls', visit r.traced root (w, s, calls) = recorded calls' (visit r root (w, s)) := by
  obtain ⟨calls', walked⟩ := r.walk_traced {} (if w.clears then {} else w.cache) s [root] calls
  exact ⟨calls', visit_recorded r root w iterable rfl walked⟩

/-- A visit is the recursive rewriting of its root: it makes the same calls in the same order and
ends alike, with the same cache, answer and mark of an early stop. It fails only as one of its
calls does, and a visit that was stopped answers its root. -/
theorem visit_refines_recursion (r : Rewriter σ) (root : Term) (acyclic : root.Acyclic)
    (w : Walker) (s : σ) (iterable : r.iterable s = true) :
    visit r root (w, s) = recurse r root (w, s) ∧
    (∃ calls, visit r.traced root (w, s, []) = recorded calls (visit r root (w, s)) ∧
      recurse r.traced root (w, s, []) = recorded calls (recurse r root (w, s))) ∧
    (∀ e after, visit r root (w, s) = .error e after → r.Raises e) ∧
    ∀ t w' s', visit r root (w, s) = .ok t (w', s') → w'.aborted = true → t = root := by
  have same := visit_eq_recurse r acyclic w iterable
  have iterable' : r.traced.iterable (s, []) = true := iterable
  refine ⟨same, ?_, ?_, ?_⟩
  · obtain ⟨calls, visited⟩ := visit_traced r root w iterable []
    exact ⟨calls, visited, by rw [← visit_eq_recurse r.traced acyclic w iterable', visited, same]⟩
  · intro e after failed
    rw [same, recurse] at failed
    cases h : r.rewrite root (if w.clears then {} else w.cache, s) with
    | ok _ after' => rw [h] at failed; cases failed
    | error halt after' =>
      rw [h] at failed
      cases halt with
      | stopped => cases failed
      | failed e' =>
        cases failed
        exact Rewriter.raises_of_rewrite h
  · intro t w' s' answered aborted
    rw [same, recurse] at answered
    cases h : r.rewrite root (if w.clears then {} else w.cache, s) with
    | ok _ after' =>
      rw [h] at answered
      cases answered
      cases aborted
    | error halt after' =>
      rw [h] at answered
      cases halt with
      | stopped => cases answered; rfl
      | failed e' => cases answered

/-- A conjunction with a shared child, of which the symbol below is replaced and the negation
rebuilt, from a cache that is kept. -/
theorem visit_refines_recursion_shared :
    let x : Term := ⟨1, 1, .null, .bool, .symbol "x", []⟩
    let y : Term := ⟨2, 1, .null, .bool, .symbol "y", []⟩
    let n : Term := ⟨3, 1, PrimOp.not, .bool, .application, [x]⟩
    let root : Term := ⟨4, 1, PrimOp.and, .bool, .application, [n, x, n]⟩
    let r : Rewriter Nat :=
      { iterable := fun _ => true
        visit := fun t _ => return if t.isSymbol then .replace y else .resume
        rebuild := fun op news s => .ok ⟨s, 1, op, .bool, .application, news⟩ (s + 1) }
    root.Acyclic ∧ r.iterable 5 = true ∧ visit r root ({}, 5) = recurse r root ({}, 5) := by
  intro x y n root r
  have leaf : x.Ordered := Term.ordered_of_children (by simp [x]) (by simp [x])
  have inner : n.Ordered := Term.ordered_of_children (by simp [n, x]) (by simpa [n] using leaf)
  have ordered : root.Ordered := Term.ordered_of_children (by simp [root, n, x]) (by
    simp only [root, List.mem_cons, List.not_mem_nil, or_false]
    rintro c (rfl | rfl | rfl)
    · exact inner
    · exact leaf
    · exact inner)
  exact ⟨ordered.acyclic, rfl, (visit_refines_recursion r root ordered.acyclic {} 5 rfl).1⟩

end Walker

end FormulaGraph

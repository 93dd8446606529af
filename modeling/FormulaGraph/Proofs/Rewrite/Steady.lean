import FormulaGraph.Proofs.Rewrite.Walk

/-!
What the steps of a rewriting keep, the rewriting keeps, however it ends. Unlike a walk in general,
a rewriting is asked about a node only when its children are known, so it has no failures but those
of the calls that its steps make; and two rewriters whose steps are the same wherever the invariant
holds rewrite alike.
-/

namespace FormulaGraph

open FormulaGraph.Action

variable {σ : Type}

namespace Rewriter

variable {r r' : Rewriter σ} {I : TermMap → σ → Prop} {F : Error → σ → Prop} {N : Term → Prop}
  {t : Term} {ts : List Term} {cache : TermMap} {s : σ}

/-- The invariant holds where a rewriting ended, and a failure left the state as one that may
happen. -/
def EndsWithin (I : TermMap → σ → Prop) (F : Error → σ → Prop) :
    EStateM.Result Halt (TermMap × σ) Unit → Prop
  | .ok _ (cache, s) | .error .stopped (cache, s) => I cache s
  | .error (.failed e) (cache, s) => I cache s ∧ F e s

/-- On nodes of a kind that is handed down to children, the steps of the rewriter keep the
invariant. -/
structure Steady (r : Rewriter σ) (I : TermMap → σ → Prop)
    (F : Error → σ → Prop) (N : Term → Prop) : Prop where
  acyclic : ∀ t, N t → t.Acyclic
  down : ∀ t, N t → ∀ c ∈ t.children, N c
  finish : ∀ cache s t, I cache s → N t → (∀ c ∈ t.children, cache.contains c = true) →
    EndsWithin I F (r.finish t (t.children.map fun c => cache.getD c c) (cache, s))

theorem rewriteAll_endsWithin
    (each : ∀ t ∈ ts, ∀ cache s, I cache s → EndsWithin I F (r.rewrite t (cache, s)))
    (holds : I cache s) : EndsWithin I F (r.rewriteAll ts (cache, s)) := by
  induction ts generalizing cache s with
  | nil => exact holds
  | cons t ts ih =>
    have others := ih (fun t' ht' => each t' (List.mem_cons_of_mem _ ht')) holds
    rw [rewriteAll]
    cases h : r.rewriteAll ts (cache, s) with
    | error halt after =>
      rw [h] at others
      rw [bind_error h]
      exact others
    | ok _ after =>
      rw [h] at others
      rw [bind_ok h]
      exact each t List.mem_cons_self after.1 after.2 others

theorem Steady.rewrite (steady : r.Steady I F N) (node : N t) (holds : I cache s) :
    EndsWithin I F (r.rewrite t (cache, s)) := by
  induction t generalizing cache s with
  | node t ih =>
    cases known : cache.contains t with
    | true =>
      rw [rewrite_known known]
      exact holds
    | false =>
      have below := steady.down t node
      have children := rewriteAll_endsWithin (r := r) (I := I) (F := F)
        (fun c hc _ _ holds => ih c hc (below c hc) holds) holds
      have progress := rewriteAll_progress
        (fun c hc => rewrite_progress r (steady.acyclic c (below c hc))) cache s
      rw [rewrite_unknown known]
      cases h : r.rewriteAll t.children (cache, s) with
      | error halt after =>
        rw [h] at children
        rw [bind_error h]
        exact children
      | ok _ after =>
        rw [h] at children progress
        rw [bind_ok h, bind_ok (images_apply _ _ _)]
        exact steady.finish after.1 after.2 t children node progress.2

theorem rewriteAll_congr
    (each : ∀ t ∈ ts, ∀ cache s, I cache s → EndsWithin I F (r.rewrite t (cache, s)) ∧
      r'.rewrite t (cache, s) = r.rewrite t (cache, s))
    (holds : I cache s) : r'.rewriteAll ts (cache, s) = r.rewriteAll ts (cache, s) := by
  induction ts generalizing cache s with
  | nil => rfl
  | cons t ts ih =>
    have others := rewriteAll_endsWithin
      (fun t' ht' cache s holds => (each t' (List.mem_cons_of_mem _ ht') cache s holds).1) holds
    have same := ih (fun t' ht' => each t' (List.mem_cons_of_mem _ ht')) holds
    rw [rewriteAll, rewriteAll]
    cases h : r.rewriteAll ts (cache, s) with
    | error halt after => rw [bind_error h, bind_error (same.trans h)]
    | ok _ after =>
      rw [h] at others
      rw [bind_ok h, bind_ok (same.trans h)]
      exact (each t List.mem_cons_self after.1 after.2 others).2

/-- A rewriter whose steps are those of a steady one, wherever the invariant of that holds, rewrites
as it does. -/
theorem Steady.rewrite_congr (steady : r.Steady I F N)
    (same : ∀ cache s t, I cache s → N t → (∀ c ∈ t.children, cache.contains c = true) →
      r'.finish t (t.children.map fun c => cache.getD c c) (cache, s) =
        r.finish t (t.children.map fun c => cache.getD c c) (cache, s))
    (node : N t) (holds : I cache s) : r'.rewrite t (cache, s) = r.rewrite t (cache, s) := by
  induction t generalizing cache s with
  | node t ih =>
    cases known : cache.contains t with
    | true => rw [rewrite_known known, rewrite_known known]
    | false =>
      have below := steady.down t node
      have each : ∀ c ∈ t.children, ∀ cache s, I cache s →
          EndsWithin I F (r.rewrite c (cache, s)) ∧
            r'.rewrite c (cache, s) = r.rewrite c (cache, s) :=
        fun c hc _ _ holds => ⟨steady.rewrite (below c hc) holds, ih c hc (below c hc) holds⟩
      have children :=
        rewriteAll_endsWithin (fun c hc cache s holds => (each c hc cache s holds).1) holds
      have alike := rewriteAll_congr each holds
      have progress := rewriteAll_progress
        (fun c hc => rewrite_progress r (steady.acyclic c (below c hc))) cache s
      rw [rewrite_unknown known, rewrite_unknown known]
      cases h : r.rewriteAll t.children (cache, s) with
      | error halt after => rw [bind_error h, bind_error (alike.trans h)]
      | ok _ after =>
        rw [h] at children progress
        rw [bind_ok h, bind_ok (images_apply _ _ _), bind_ok (alike.trans h),
          bind_ok (images_apply _ _ _)]
        exact same after.1 after.2 t children node progress.2

end Rewriter

namespace Walker

variable {r r' : Rewriter σ} {I : TermMap → σ → Prop} {F : Error → σ → Prop} {N : Term → Prop}
  {root : Term} {w : Walker} {s : σ}

theorem visit_endsWithin (steady : r.Steady I F N) (iterable : r.iterable s = true) (node : N root)
    (holds : I (if w.clears then {} else w.cache) s) :
    match visit r root (w, s) with
    | .ok u (w', s') => I w'.cache s' ∧ (w'.cache[root]? = some u ∨ u = root)
    | .error e (w', s') => I w'.cache s' ∧ F e s' := by
  have ended := steady.rewrite node holds
  have progress :=
    r.rewrite_progress (steady.acyclic root node) (if w.clears then {} else w.cache) s
  rw [visit_eq_recurse r (steady.acyclic root node) w iterable, recurse]
  cases h : r.rewrite root (if w.clears then {} else w.cache, s) with
  | ok _ after =>
    rw [h] at ended progress
    refine ⟨ended, .inl ?_⟩
    have known := progress.2
    rw [Std.HashMap.contains_eq_isSome_getElem?, Option.isSome_iff_exists] at known
    obtain ⟨u, found⟩ := known
    rw [Std.HashMap.getD_eq_getD_getElem?, found]
    rfl
  | error halt after =>
    rw [h] at ended
    cases halt with
    | stopped => exact ⟨ended, .inr rfl⟩
    | failed e => exact ended

theorem visit_congr (steady : r.Steady I F N) (iterable : r.iterable s = true)
    (iterable' : r'.iterable s = true)
    (same : ∀ cache s t, I cache s → N t → (∀ c ∈ t.children, cache.contains c = true) →
      r'.finish t (t.children.map fun c => cache.getD c c) (cache, s) =
        r.finish t (t.children.map fun c => cache.getD c c) (cache, s))
    (node : N root) (holds : I (if w.clears then {} else w.cache) s) :
    visit r' root (w, s) = visit r root (w, s) := by
  have acyclic := steady.acyclic root node
  rw [visit_eq_recurse r acyclic w iterable,
    visit_eq_recurse r' acyclic w iterable', recurse, recurse, steady.rewrite_congr same node holds]

end Walker

end FormulaGraph

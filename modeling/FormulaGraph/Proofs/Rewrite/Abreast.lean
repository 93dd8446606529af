import FormulaGraph.Proofs.Rewrite.Invariant

/-!
One walk from two states. If at every node the rewriter does the same in both, so does the walk: it
ends the same way, with the same images, in states that are still related.
-/

namespace FormulaGraph

open FormulaGraph.Action

variable {σ : Type} {R : σ → σ → Prop} {s s' : σ}

namespace Rewriter

/-- Both came to the same, in states that are related. -/
structure Abreast {α : Type} (R : σ → σ → Prop) (p p' : α × σ) : Prop where
  same : p'.1 = p.1
  related : R p.2 p'.2

theorem Abreast.of_eq {α : Type} {a : α} {p p' : α × σ} (abreast : Abreast R p p')
    (left : p = (a, s)) :
    ∃ s', p' = (a, s') ∧ R s s' := by
  obtain ⟨same, related⟩ := abreast
  subst left
  exact ⟨p'.2, Prod.ext same rfl, related⟩

theorem settle_abreast {r : Rewriter σ} {t : Term} {news : List Term}
    (visit : Alike R (r.visit t news s) (r.visit t news s'))
    (rebuild : ∀ s₁ s₁', r.visit t news s = .ok .resume s₁ → R s₁ s₁' →
      Alike R (r.rebuild t.op news s₁) (r.rebuild t.op news s₁')) :
    Abreast R (r.settle t news s) (r.settle t news s') := by
  unfold settle
  generalize left : r.visit t news s = v, right : r.visit t news s' = v' at visit
  cases visit with
  | error e related => exact ⟨rfl, related⟩
  | ok step related =>
    cases step with
    | abort | keep | replace u => exact ⟨rfl, related⟩
    | resume =>
      dsimp only
      split
      · exact ⟨rfl, related⟩
      · have alike := rebuild _ _ left related
        revert alike
        generalize r.rebuild t.op news _ = u, r.rebuild t.op news _ = u'
        intro alike
        cases alike with
        | ok a related | error e related => exact ⟨rfl, related⟩

/-- A walk does the same from related states, if its steps do and the first state keeps what they
need. -/
theorem walk_abreast {r : Rewriter σ} {I : TermMap → σ → Prop} {F : Error → Prop}
    {N : Term → Prop} (down : ∀ t, N t → ∀ c ∈ t.children, N c)
    (step : ∀ cache s t news, I cache s → N t → resolved cache t t.children = .ok news →
      Settles I F cache t (r.settle t news s))
    (abreast : ∀ cache s s' t news, I cache s → N t → resolved cache t t.children = .ok news →
      R s s' → Abreast R (r.settle t news s) (r.settle t news s'))
    (entered : Std.HashSet Term) (cache : TermMap) (s s' : σ) (stack : List Term)
    (holds : I cache s) (nodes : ∀ t ∈ stack, N t) (related : R s s') :
    ∃ ending cache' t t', r.walk entered cache s stack = (ending, cache', t) ∧
      r.walk entered cache s' stack = (ending, cache', t') ∧ R t t' := by
  induction entered, cache, s, stack using walk.induct r generalizing s' with
  | case1 entered cache s =>
    rw [walk, walk]
    exact ⟨_, _, _, _, rfl, rfl, related⟩
  | case2 entered cache s t rest known ih =>
    rw [walk, if_pos known, walk, if_pos known]
    exact ih s' holds (fun u hu => nodes u (List.mem_cons_of_mem _ hu)) related
  | case3 entered cache s t rest unknown met e failed =>
    rw [walk, if_neg unknown, if_pos met, failed, walk, if_neg unknown, if_pos met, failed]
    exact ⟨_, _, _, _, rfl, rfl, related⟩
  | case4 entered cache s t rest unknown met news found ending s₁ settled =>
    have both := abreast cache s s' t news holds (nodes t List.mem_cons_self) found related
    obtain ⟨s₁', settled', related⟩ := both.of_eq settled
    rw [walk, if_neg unknown, if_pos met, found, walk, if_neg unknown, if_pos met, found]
    simp only [settled, settled']
    exact ⟨_, _, _, _, rfl, rfl, related⟩
  | case5 entered cache s t rest unknown met news found u s₁ settled ih =>
    have both := abreast cache s s' t news holds (nodes t List.mem_cons_self) found related
    obtain ⟨s₁', settled', related⟩ := both.of_eq settled
    have kept := step cache s t news holds (nodes t List.mem_cons_self) found
    rw [walk, if_neg unknown, if_pos met, found, walk, if_neg unknown, if_pos met, found]
    simp only [settled, settled'] at kept ⊢
    exact ih s₁' kept (fun v hv => nodes v (List.mem_cons_of_mem _ hv)) related
  | case6 entered cache s t rest unknown unmet ih =>
    rw [walk, if_neg unknown, if_neg unmet, walk, if_neg unknown, if_neg unmet]
    refine ih s' holds (fun u hu => ?_) related
    rw [enter, List.mem_append, List.mem_reverse] at hu
    cases hu with
    | inl child => exact down t (nodes t List.mem_cons_self) u child
    | inr hu => exact nodes u hu

end Rewriter

theorem Walker.visit_alike {r : Rewriter σ} {root : Term} {w : Walker}
    (iterable : r.iterable s' = r.iterable s) (related : R s s')
    (walks : ∃ ending cache t t',
      r.walk {} (if w.clears then {} else w.cache) s [root] = (ending, cache, t) ∧
        r.walk {} (if w.clears then {} else w.cache) s' [root] = (ending, cache, t') ∧ R t t') :
    Alike (fun x x' => x'.1 = x.1 ∧ R x.2 x'.2) (visit r root (w, s)) (visit r root (w, s')) := by
  cases opened : r.iterable s with
  | false =>
    rw [visit_refused r root w opened, visit_refused r root w (iterable.trans opened)]
    exact .error _ ⟨rfl, related⟩
  | true =>
    obtain ⟨ending, cache, t, t', left, right, related⟩ := walks
    rw [visit_iterable r root w opened,
      visit_iterable r root w (iterable.trans opened), left, right]
    cases ending with
    | failed e => exact .error e ⟨rfl, related⟩
    | stopped => exact .ok _ ⟨rfl, related⟩
    | completed =>
      dsimp only
      split
      · exact .ok _ ⟨rfl, related⟩
      · exact .error _ ⟨rfl, related⟩

end FormulaGraph

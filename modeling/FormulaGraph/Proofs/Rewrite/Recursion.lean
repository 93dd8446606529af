import FormulaGraph.Proofs.Action
import FormulaGraph.Proofs.Term.Occurrence
import FormulaGraph.Rewrite

/-!
Rewriting by recursion: a term whose image is not known is rewritten after its children, of which
the last comes first. What is known only grows, by nodes of the rewritten terms; a term that was
rewritten is known at the end.
-/

namespace FormulaGraph.Rewriter

open FormulaGraph.Action

variable {σ : Type}

/-- Why a rewriting ends before its time. -/
inductive Halt where
  | stopped
  | failed (e : Error)

def Halt.ending : Halt → Ending
  | stopped => .stopped
  | failed e => .failed e

/-- Part of a rewriting, which acts on what nodes became so far and on the state of the rewriter. -/
abbrev Rewriting (σ α : Type) := EStateM Halt (TermMap × σ) α

namespace Rewriting

def knows (t : Term) : Rewriting σ Bool := fun (cache, s) => .ok (cache.contains t) (cache, s)

/-- What these terms became. -/
def images (ts : List Term) : Rewriting σ (List Term) := fun (cache, s) =>
  .ok (ts.map fun t => cache.getD t t) (cache, s)

def save (t u : Term) : Rewriting σ Unit := fun (cache, s) => .ok () (cache.insert t u, s)

/-- An action of the rewriter, whose failure ends the rewriting. -/
def perform {α : Type} (act : Action σ α) : Rewriting σ α := fun (cache, s) =>
  match act s with
  | .ok a s => .ok a (cache, s)
  | .error e s => .error (.failed e) (cache, s)

end Rewriting

open Rewriting

/-- Rewrites a term whose children became `news`. -/
def finish (r : Rewriter σ) (t : Term) (news : List Term) : Rewriting σ Unit := do
  match ← perform (r.visit t news) with
  | .abort => throw .stopped
  | .keep => save t t
  | .replace u => save t u
  | .resume =>
    if news == t.children || t.isValue then save t t
    else save t (← perform (r.rebuild t.op news))

mutual
/-- Rewrites a term whose image is not known yet: first its children, then the term itself. -/
def rewrite (r : Rewriter σ) : Term → Rewriting σ Unit
  | ⟨id, session, op, sort, kind, children⟩ => do
    if !(← knows ⟨id, session, op, sort, kind, children⟩) then
      rewriteAll r children
      r.finish ⟨id, session, op, sort, kind, children⟩ (← images children)
/-- Rewrites terms, the last one first. -/
def rewriteAll (r : Rewriter σ) : List Term → Rewriting σ Unit
  | [] => return
  | t :: ts => do
    rewriteAll r ts
    rewrite r t
end

theorem images_apply (ts : List Term) (cache : TermMap) (s : σ) :
    images ts (cache, s) = .ok (ts.map fun t => cache.getD t t) (cache, s) := rfl

theorem perform_ok {α : Type} {act : Action σ α} {a : α} {s s' : σ} (h : act s = .ok a s')
    (cache : TermMap) : perform act (cache, s) = .ok a (cache, s') := by
  simp only [perform, h]

theorem perform_error {α : Type} {act : Action σ α} {e : Error} {s s' : σ}
    (h : act s = .error e s') (cache : TermMap) :
    perform act (cache, s) = .error (.failed e) (cache, s') := by
  simp only [perform, h]

theorem rewrite_known {r : Rewriter σ} {t : Term} {cache : TermMap} {s : σ}
    (known : cache.contains t = true) : rewrite r t (cache, s) = .ok () (cache, s) := by
  have knows : knows t (cache, s) = .ok true (cache, s) := by rw [← known]; rfl
  cases t
  rw [rewrite, bind_ok knows]
  rfl

theorem rewrite_unknown {r : Rewriter σ} {t : Term} {cache : TermMap} {s : σ}
    (unknown : cache.contains t = false) : rewrite r t (cache, s) =
      (rewriteAll r t.children >>= fun _ => images t.children >>= r.finish t) (cache, s) := by
  have knows : knows t (cache, s) = .ok false (cache, s) := by rw [← unknown]; rfl
  cases t
  rw [rewrite, bind_ok knows]
  rfl

theorem beq_eq_unchanged {news : List Term} {t : Term} (length : news.length = t.children.length) :
    (news == t.children) = unchanged news t := by
  unfold unchanged
  generalize t.children = olds at length
  induction news generalizing olds with
  | nil =>
    cases olds with
    | nil => rfl
    | cons old olds => simp at length
  | cons new news ih =>
    cases olds with
    | nil => simp at length
    | cons old olds =>
      rw [List.zip_cons_cons, List.all_cons, ← ih olds (by simpa using length)]
      rfl

/-- The step of the walk is that of the recursion. -/
theorem finish_eq_settle (r : Rewriter σ) (t : Term) {news : List Term} (cache : TermMap) (s : σ)
    (length : news.length = t.children.length) :
    r.finish t news (cache, s) =
      match r.settle t news s with
      | (.ok u, s) => .ok () (cache.insert t u, s)
      | (.error (.failed e), s) => .error (.failed e) (cache, s)
      | (.error _, s) => .error .stopped (cache, s) := by
  unfold settle finish
  cases visited : r.visit t news s with
  | error e s' => rw [bind_error (perform_error visited cache)]
  | ok step s' =>
    rw [bind_ok (perform_ok visited cache)]
    cases step with
    | abort | keep | replace u => rfl
    | resume =>
      simp only [beq_eq_unchanged length]
      by_cases same : (unchanged news t || t.isValue) = true
      · rw [if_pos same, if_pos same]
        rfl
      · rw [if_neg same, if_neg same]
        cases rebuilt : r.rebuild t.op news s' with
        | ok u s'' => rw [bind_ok (perform_ok rebuilt cache)]; rfl
        | error e s'' => rw [bind_error (perform_error rebuilt cache)]

/-- What became known while these terms were rewritten. -/
structure Grown (ts : List Term) (cache cache' : TermMap) : Prop where
  kept : ∀ (a u : Term), cache[a]? = some u → cache'[a]? = some u
  within : ∀ a : Term, cache'.contains a = true →
    cache.contains a = true ∨ ∃ t ∈ ts, ∃ b : Term, b.OccursIn t ∧ b.id = a.id

theorem Grown.refl (ts : List Term) (cache : TermMap) : Grown ts cache cache :=
  ⟨fun _ _ h => h, fun _ h => .inl h⟩

theorem Grown.cons {t : Term} {ts : List Term} {cache cache' cache'' : TermMap}
    (others : Grown ts cache cache') (first : Grown [t] cache' cache'') :
    Grown (t :: ts) cache cache'' := by
  refine ⟨fun a u h => first.kept a u (others.kept a u h), fun a ha => ?_⟩
  obtain ha | ⟨t', ht', b, hb⟩ := first.within a ha
  · obtain ha | ⟨t', ht', b, hb⟩ := others.within a ha
    · exact .inl ha
    · exact .inr ⟨t', List.mem_cons_of_mem _ ht', b, hb⟩
  · rw [List.mem_singleton.mp ht'] at hb
    exact .inr ⟨t, List.mem_cons_self, b, hb⟩

theorem Grown.contains {ts : List Term} {cache cache' : TermMap} (grown : Grown ts cache cache')
    {a : Term} (known : cache.contains a = true) : cache'.contains a = true := by
  rw [Std.HashMap.contains_eq_isSome_getElem?, Option.isSome_iff_exists] at known ⊢
  obtain ⟨u, hu⟩ := known
  exact ⟨u, grown.kept a u hu⟩

theorem Grown.unknown {t : Term} (acyclic : t.Acyclic) {cache cache' : TermMap}
    (grown : Grown t.children cache cache') (unknown : cache.contains t = false) :
    cache'.contains t = false := by
  cases known : cache'.contains t with
  | false => rfl
  | true =>
    obtain known | ⟨c, hc, b, hb, same⟩ := grown.within t known
    · exact absurd (unknown.symm.trans known) Bool.false_ne_true
    · exact absurd same (acyclic t .here c hc b hb)

/-- Of a term that was rewritten, all is known; of one whose rewriting ended early, what became of
its children by then. -/
def Progress (t : Term) (cache : TermMap) : EStateM.Result Halt (TermMap × σ) Unit → Prop
  | .ok _ (cache', _) => Grown [t] cache cache' ∧ cache'.contains t = true
  | .error _ (cache', _) => Grown t.children cache cache' ∧ cache'.contains t = false

def ProgressAll (ts : List Term) (cache : TermMap) :
    EStateM.Result Halt (TermMap × σ) Unit → Prop
  | .ok _ (cache', _) => Grown ts cache cache' ∧ ∀ t ∈ ts, cache'.contains t = true
  | .error _ (cache', _) => Grown ts cache cache'

theorem Grown.parent {t : Term} {cache cache' : TermMap} (grown : Grown t.children cache cache') :
    Grown [t] cache cache' := by
  refine ⟨grown.kept, fun a ha => ?_⟩
  obtain ha | ⟨c, hc, b, hb, same⟩ := grown.within a ha
  · exact .inl ha
  · exact .inr ⟨t, List.mem_cons_self, b, .inChild hc hb, same⟩

theorem Grown.insert {t : Term} {cache cache' : TermMap} (grown : Grown [t] cache cache')
    (unknown : cache'.contains t = false) (u : Term) : Grown [t] cache (cache'.insert t u) := by
  refine ⟨fun a v h => ?_, fun a ha => ?_⟩
  · have found := grown.kept a v h
    have other : (t == a) = false := by
      cases same : t == a with
      | false => rfl
      | true =>
        rw [Std.HashMap.contains_congr same,
          Std.HashMap.contains_eq_isSome_getElem?, found] at unknown
        exact absurd unknown (by simp)
    rw [Std.HashMap.getElem?_insert, other]
    exact found
  · rw [Std.HashMap.contains_insert, Bool.or_eq_true] at ha
    cases ha with
    | inl same => exact .inr ⟨t, List.mem_cons_self, t, .here, Term.beq_iff.mp same⟩
    | inr ha => exact grown.within a ha

theorem rewriteAll_progress {r : Rewriter σ} {ts : List Term}
    (each : ∀ t ∈ ts, ∀ cache s, Progress t cache (rewrite r t (cache, s)))
    (cache : TermMap) (s : σ) : ProgressAll ts cache (rewriteAll r ts (cache, s)) := by
  induction ts with
  | nil => exact ⟨.refl [] cache, fun t ht => absurd ht List.not_mem_nil⟩
  | cons t ts ih =>
    have others := ih fun t' ht' => each t' (List.mem_cons_of_mem _ ht')
    rw [rewriteAll]
    cases h : rewriteAll r ts (cache, s) with
    | error halt after =>
      rw [h] at others
      rw [bind_error h]
      exact .cons others (.refl _ _)
    | ok _ after =>
      rw [h] at others
      have first := each t List.mem_cons_self after.1 after.2
      rw [bind_ok h]
      cases h' : rewrite r t after with
      | error halt after' =>
        rw [h'] at first
        exact .cons others.1 first.1.parent
      | ok _ after' =>
        rw [h'] at first
        refine ⟨.cons others.1 first.1, fun t' ht' => ?_⟩
        obtain rfl | ht' := List.mem_cons.mp ht'
        · exact first.2
        · exact first.1.contains (others.2 t' ht')

theorem rewrite_progress (r : Rewriter σ) {t : Term} (acyclic : t.Acyclic) (cache : TermMap)
    (s : σ) : Progress t cache (rewrite r t (cache, s)) := by
  induction t generalizing cache s with
  | node t ih =>
    cases known : cache.contains t with
    | true =>
      rw [rewrite_known known]
      exact ⟨.refl _ _, known⟩
    | false =>
      have children := rewriteAll_progress (r := r) (fun c hc => ih c hc (acyclic.child hc)) cache s
      rw [rewrite_unknown known]
      cases h : rewriteAll r t.children (cache, s) with
      | error halt after =>
        rw [h] at children
        rw [bind_error h]
        exact ⟨children, children.unknown acyclic known⟩
      | ok _ after =>
        rw [h] at children
        have fresh := children.1.unknown acyclic known
        rw [bind_ok h, bind_ok (images_apply _ _ _), finish_eq_settle _ _ _ _ (by simp)]
        obtain ⟨result, s'⟩ := r.settle t (t.children.map fun c => after.1.getD c c) after.2
        cases result with
        | ok u => exact ⟨children.1.parent.insert fresh u, by simp⟩
        | error halt =>
          cases halt <;> exact ⟨children.1, fresh⟩

end FormulaGraph.Rewriter

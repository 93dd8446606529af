import FormulaGraph.Proofs.Solver.Aliasing
import FormulaGraph.Proofs.Solver.Isolation
import FormulaGraph.Proofs.Solver.LikeRequests

/-!
Two solvers that are asked the same, one request after the other, about terms that they have handed
out together. Terms that were made elsewhere may be given to both as well; they, too, come in pairs.
If the solvers are alike, whoever asks them cannot tell them apart.
-/

namespace FormulaGraph

open FormulaGraph.Action

/-- Terms that were handed out together, or are at the same place below such terms. -/
inductive Paired (issued : List (Term × Term)) : Term → Term → Prop
  | handed {t t' : Term} (member : (t, t') ∈ issued) : Paired issued t t'
  | child {t t' c c' : Term} (parents : Paired issued t t')
      (place : (c, c') ∈ t.children.zip t'.children) :
      Paired issued c c'

namespace Paired

variable {V : Vocabulary} {N : Naming} {issued issued' : List (Term × Term)} {t t' : Term}

theorem holds {R : Term → Term → Prop} (paired : Paired issued t t')
    (roots : ∀ p ∈ issued, R p.1 p.2)
    (down : ∀ t t', R t t' → List.Forall₂ R t.children t'.children) : R t t' := by
  induction paired with
  | handed member => exact roots _ member
  | child _ place ih => exact List.forall₂_zip (down _ _ ih) place

theorem pair (paired : Paired issued t t') (roots : ∀ p ∈ issued, V.Pair N p.1 p.2) :
    V.Pair N t t' :=
  paired.holds roots fun _ _ pair => pair.children

theorem renamed (nodes : ∀ t t', Paired issued t t' → N.nodes t t') (shape : t'.shape = t.shape)
    (paired : Paired issued t t') : t.Renamed N t' := by
  induction t generalizing t' with
  | node t ih =>
    obtain ⟨op, sort, kind, shapes⟩ := Term.shape_eq_iff.mp shape
    obtain ⟨length, same⟩ := List.forall₂_iff_zip.mp (Term.forall₂_of_shapes shapes.symm)
    refine .node (nodes t t' paired) op sort kind
      (List.forall₂_iff_zip.mpr ⟨length, fun {c c'} place => ?_⟩)
    exact ih c (List.of_mem_zip place).1 (same place).symm (.child paired place)

end Paired

namespace Naming

/-- Also terms from elsewhere correspond. -/
def among (N : Naming) (strangers : List (Term × Term)) : Naming :=
  ⟨fun t t' => N.nodes t t' ∨ Paired strangers t t'⟩

theorem extends_among (N : Naming) (strangers : List (Term × Term)) :
    N.Extends (N.among strangers) :=
  ⟨fun _ _ h => .inl h⟩

end Naming

namespace Solver

variable {σ S T σ' S' T' : Type} [BEq T] [Hashable T] [BEq T'] [Hashable T']

/-- The term is there, but not in the solver's session. -/
structure Foreign (s : Solver σ S T) (t : Term) : Prop where
  made : t.id < s.session.supply.nextTerm
  other : t.session ≠ s.session.number
  begun : t.session < s.session.supply.nextSession

/-- Terms that are made elsewhere on both sides. They are alike, and of the vocabulary, and their
nodes are made in the same order, all of them by now, and none before those points in time that was
not known before. -/
structure Strangers (V : Vocabulary) (low : Nat) (s : Solver σ S T) (low' : Nat)
    (s' : Solver σ' S' T')
    (issued strangers : List (Term × Term)) : Prop where
  shapes : ∀ p ∈ strangers, p.2.shape = p.1.shape
  within : ∀ p ∈ strangers, p.1.Within V
  foreign : ∀ t t', Paired strangers t t' → Paired issued t t' ∨ Foreign s t ∧ Foreign s' t'
  new : ∀ t t', Paired strangers t t' → Paired issued t t' ∨ low ≤ t.id ∧ low' ≤ t'.id
  order : ∀ t t' u u', Paired strangers t t' → Paired strangers u u' → t'.compare u' = t.compare u

variable [Engine σ S T] [Engine σ' S' T'] {V : Vocabulary} {Drift : σ → σ → Prop} {N N' : Naming}
  {start s : Solver σ S T} {start' s' : Solver σ' S' T'} {issued strangers : List (Term × Term)}
  {sound : Naming → Solver σ S T → Solver σ' S' T' → Prop} {t t' : Term} {low low' : Nat}

/-- Two solvers side by side. Both are asked the same, of terms that are paired; the notices of one
of them are taken; or others draw on the supplies, and make terms there; or the engine of the first
drifts by itself. -/
inductive Parallel (V : Vocabulary) (Drift : σ → σ → Prop) (start : Solver σ S T)
    (start' : Solver σ' S' T') :
    Solver σ S T → Solver σ' S' T' → List (Term × Term) → Prop
  | begun {strangers : List (Term × Term)} (foreign : Strangers V 0 start 0 start' [] strangers) :
      Parallel V Drift start start' start start' strangers
  | served {s : Solver σ S T} {s' : Solver σ' S' T'} {issued : List (Term × Term)}
      (before : Parallel V Drift start start' s s' issued) {q q' : Request}
      (alike : q.Alike (Paired issued) q') (within : q.Within V) :
      Parallel V Drift start start' (q.perform.finalState s) (q'.perform.finalState s')
        (issued ++ (handed (q.perform.outcome s)).zip (handed (q'.perform.outcome s')))
  | reported {s : Solver σ S T} {s' : Solver σ' S' T'} {issued : List (Term × Term)}
      (before : Parallel V Drift start start' s s' issued) :
      Parallel V Drift start start' (Engine.takeNotices s).2 s' issued
  | reported_other {s : Solver σ S T} {s' : Solver σ' S' T'} {issued : List (Term × Term)}
      (before : Parallel V Drift start start' s s' issued) :
      Parallel V Drift start start' s (Engine.takeNotices s').2 issued
  | elsewhere {s : Solver σ S T} {s' : Solver σ' S' T'} {issued strangers : List (Term × Term)}
      (before : Parallel V Drift start start' s s' issued) {supply supply' : Supply}
      (drawn : s.session.supply.Drawn supply) (drawn' : s'.session.supply.Drawn supply')
      (foreign : Strangers V s.session.supply.nextTerm (s.drawing supply) s'.session.supply.nextTerm
        (s'.drawing supply') issued strangers) :
      Parallel V Drift start start' (s.drawing supply) (s'.drawing supply') (issued ++ strangers)
  | drifted {s : Solver σ S T} {s' : Solver σ' S' T'} {issued : List (Term × Term)}
      (before : Parallel V Drift start start' s s' issued) {e : σ} (drift : Drift s.engine e) :
      Parallel V Drift start start' ⟨e, s.session⟩ s' issued

/-- Nothing that can be asked tells the solvers apart. They have as many terms; they know the same
sorts; the terms that they have handed out are of the same shapes, and made in the same order; and
to the same request they give the same answer, or fail for the same reason and in the same words. -/
structure Indistinguishable (V : Vocabulary) (s : Solver σ S T) (s' : Solver σ' S' T')
    (issued : List (Term × Term)) : Prop where
  termCount : s'.termCount = s.termCount
  hasSort : ∀ sort, s'.session.hasSort sort = s.session.hasSort sort
  shapes : ∀ t t', Paired issued t t' → t'.shape = t.shape
  order : ∀ t t' u u', Paired issued t t' → Paired issued u u' → t'.compare u' = t.compare u
  answers : ∀ q q' : Request, q.Alike (Paired issued) q' → q.Within V →
    heard (q'.perform.outcome s') = heard (q.perform.outcome s)

theorem Parallel.answered {V : Vocabulary} {Drift : σ → σ → Prop} {start s : Solver σ S T}
    {start' s' after' : Solver σ' S' T'} {issued : List (Term × Term)} {q q' : Request} {t' : Term}
    (parallel : Parallel V Drift start start' s s' issued) (same : Indistinguishable V s s' issued)
    (alike : q.Alike (Paired issued) q') (within : q.Within V)
    (done : q'.perform s' = .ok (.term t') after') :
    ∃ t after, q.perform s = .ok (.term t) after ∧ t.shape = t'.shape ∧
      Parallel V Drift start start' after after' (issued ++ [(t, t')]) := by
  have heard := same.answers q q' alike within
  have served := parallel.served alike within
  rw [outcome_ok done] at heard served
  obtain ⟨t, answered, shape⟩ := answered_term heard
  obtain ⟨after, run⟩ := of_outcome_ok answered
  rw [outcome_ok run, finalState_ok run, finalState_ok done] at served
  exact ⟨t, after, run, shape, served⟩

section Strangers

variable (foreign : Strangers V low s low' s' issued strangers)
    (known : ∀ p ∈ issued, V.Pair N p.1 p.2)

include foreign known

omit [Engine σ S T] [Engine σ' S' T'] in
theorem Strangers.ordered (ordered : N.Ordered)
    (bounded : ∀ i i', N.ids i i' → i < low ∧ i' < low') :
    (N.among strangers).Ordered := by
  -- A stranger that was not known before is younger than all that had a name.
  have younger : ∀ i i' t t', N.ids i i' → Paired strangers t t' →
      Ord.compare i' t'.id = Ord.compare i t.id ∧ Ord.compare t'.id i' = Ord.compare t.id i := by
    intro i i' t t' named paired
    cases foreign.new t t' paired with
    | inl old =>
      have named' := (old.pair known).renamed.id
      exact ⟨ordered _ _ _ _ named named', ordered _ _ _ _ named' named⟩
    | inr new =>
      have := bounded i i' named
      rw [Nat.compare_eq_lt.mpr (by omega), Nat.compare_eq_lt.mpr (by omega),
        Nat.compare_eq_gt.mpr (by omega), Nat.compare_eq_gt.mpr (by omega)]
      exact ⟨rfl, rfl⟩
  rintro i i' j j' ⟨t, t', first | first, rfl, rfl⟩ ⟨u, u', second | second, rfl, rfl⟩
  · exact ordered _ _ _ _ ⟨t, t', first, rfl, rfl⟩ ⟨u, u', second, rfl, rfl⟩
  · exact (younger _ _ u u' ⟨t, t', first, rfl, rfl⟩ second).1
  · exact (younger _ _ t t' ⟨u, u', second, rfl, rfl⟩ first).2
  · exact foreign.order t t' u u' first second

omit [Engine σ S T] [Engine σ' S' T'] in
theorem Strangers.pairs : ∀ p ∈ issued ++ strangers, V.Pair (N.among strangers) p.1 p.2 := by
  intro p member
  cases List.mem_append.mp member with
  | inl old => exact (known p old).extend (N.extends_among strangers)
  | inr new =>
    refine ⟨?_, foreign.within p new⟩
    exact Paired.renamed (fun _ _ paired => .inr paired) (foreign.shapes p new) (.handed new)

omit [Engine σ S T] [Engine σ' S' T'] in
theorem Strangers.nodes : ∀ t t', (N.among strangers).nodes t t' →
    N.nodes t t' ∨ Foreign s t ∧ Foreign s' t' := by
  rintro t t' (old | new)
  · exact .inl old
  · cases foreign.foreign t t' new with
    | inl old => exact .inl (old.pair known).renamed.nodes
    | inr new => exact .inr new

end Strangers

end Solver

end FormulaGraph
